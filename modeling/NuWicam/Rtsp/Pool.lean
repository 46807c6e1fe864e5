import NuWicam.Lib.Arena
import NuWicam.Rtsp.Framing

/-!
# The pool of a message (`pmsg.c`)

The strings of a message under construction stand one behind the other in a pool of `max_len` bytes, and `proto_id`, `reason`
and the header table are offsets into it. A function is `none` where it would leave the pool. `Shows p r`: the pointers of
`p` lead to the strings of the response `r`, which do not overlap (`run_shows`).
-/

namespace NuWicam.Rtsp

open Lib List Option

/-! ## The functions of the source -/

structure PoolMsg where
  maxLen : Nat
  msgLen : Nat
  /-- the bytes `msg` points to -/
  mem : Str
  protoId : Option Nat
  reason : Option Nat
  /-- name and value of each header -/
  fields : List (Nat × Nat)
  /-- the pointers that `add_pmsg_string` has given to its callers outside of this file -/
  given : List Nat
deriving DecidableEq, Repr

namespace Pool

/-- The pool holds what `malloc` left there. -/
def newPmsg (mem : Str) : PoolMsg := ⟨mem.length, 0, mem, none, none, [], []⟩

def addPmsgString (p : PoolMsg) (s : Str) : Option (Option Nat × PoolMsg) :=
  if p.maxLen < p.msgLen + (s.length + 1) then some (none, p)
  else (storeAt p.mem p.msgLen (s ++ [0])).map fun mem =>
    (some p.msgLen, { p with mem := mem, msgLen := p.msgLen + (s.length + 1) })

def addHeader (p : PoolMsg) (name value : Str) : Option (Bool × PoolMsg) :=
  if p.fields.length = maxFields then some (false, p)
  else (addPmsgString p name).bind fun
    | (none, p) => some (false, p)
    | (some n, p) => (addPmsgString p value).map fun
      | (none, p) => (false, p)
      | (some v, p) => (true, { p with fields := p.fields ++ [(n, v)] })

/-- `vsnprintf` of a text into `size` bytes -/
def vsnprintf (mem : Str) (off size : Nat) (text : Str) : Option Str :=
  if size = 0 then some mem else storeAt mem off (text.take (size - 1) ++ [0])

/-- `text` is what the format writes. -/
def addHeaderPrintf (p : PoolMsg) (name text : Str) : Option (Bool × PoolMsg) :=
  if p.maxLen < p.msgLen then none -- a negative size is a huge one for `vsnprintf`
  else (vsnprintf p.mem p.msgLen (p.maxLen - p.msgLen) text).bind fun mem =>
    if p.fields.length = maxFields then some (false, { p with mem := mem })
    else if p.maxLen ≤ p.msgLen + text.length then some (false, { p with mem := mem })
    else (addPmsgString { p with mem := mem, msgLen := p.msgLen + (text.length + 1) } name).map fun
      | (none, q) => (false, q)
      | (some n, q) => (true, { q with fields := q.fields ++ [(n, p.msgLen)] })

/-- The index of the first header of that name. -/
def fieldIdx (mem name : Str) : List (Nat × Nat) → Option (Option Nat)
  | [] => some none
  | f :: fs => (strAt mem f.1).bind fun s =>
      if caseEq s name then some (some 0) else (fieldIdx mem name fs).map (Option.map (· + 1))

def getHeader (p : PoolMsg) (name : Str) : Option (Option Nat) :=
  (fieldIdx p.mem name p.fields).map (Option.map fun i => (p.fields.getD i (0, 0)).2)

def replaceHeader (p : PoolMsg) (name value : Str) : Option (Bool × PoolMsg) :=
  (fieldIdx p.mem name p.fields).bind fun
    | none => addHeader p name value
    | some i =>
      let f := p.fields.getD i (0, 0)
      (strAt p.mem f.2).bind fun old =>
        if old.length < value.length then
          (addPmsgString p value).map fun
            | (none, p) => (false, p)
            | (some v, p) => (true, { p with fields := p.fields.set i (f.1, v) })
        else (storeAt p.mem f.2 (value ++ [0])).map fun mem => (true, { p with mem := mem })

def copyHeaders (p : PoolMsg) (src : List (Str × Str)) (name : Str) : Option PoolMsg :=
  (src.filter fun f => caseEq f.1 name).foldlM (fun p f => (addHeader p f.1 f.2).map Prod.snd) p

end Pool

/-! ## The response that a pool shows -/

abbrev Placed := Nat × Str

def PtrShows (given : List Placed) : Option Nat → Option Str → Prop
  | none, none => True
  | some o, some s => (o, s) ∈ given
  | _, _ => False

theorem PtrShows.mono {given given' : List Placed} (hsub : given ⊆ given') :
    ∀ {o : Option Nat} {s : Option Str}, PtrShows given o s → PtrShows given' o s
  | none, none, _ => trivial
  | some _, some _, h => hsub h

def cellsOf (cells : List (Placed × Placed)) : List Placed := cells.flatMap fun x => [x.1, x.2]

/-- The strings that were given to callers, the names and values of the headers, and strings that are not yet in use. -/
structure ShowsWith (p : PoolMsg) (r : Resp) (given : List Placed) (cells : List (Placed × Placed))
    (unused : List Placed) : Prop where
  maxLen : p.maxLen = r.maxLen
  size : p.mem.length = p.maxLen
  msgLen : p.msgLen = r.msgLen
  room : p.msgLen ≤ p.maxLen
  protoId : PtrShows given p.protoId r.protoId
  reason : PtrShows given p.reason r.reason
  callers : p.given = given.map Prod.fst
  fields : p.fields = cells.map fun x => (x.1.1, x.2.1)
  values : r.fields = cells.map fun x => (x.1.2, x.2.2)
  laid : Laid p.mem p.msgLen (unused ++ (given ++ cellsOf cells))

def Shows (p : PoolMsg) (r : Resp) : Prop := ∃ given cells, ShowsWith p r given cells []

theorem shows_newPmsg (mem : Str) (code : Nat) : Shows (Pool.newPmsg mem) (newPmsg mem.length code) :=
  ⟨[], [], rfl, rfl, rfl, Nat.zero_le _, trivial, trivial, rfl, rfl, rfl, .nil⟩

section Simulation

variable {p : PoolMsg} {r : Resp} {given unused : List Placed} {cells : List (Placed × Placed)}
  {s name value text : Str}

theorem ShowsWith.length_fields (h : ShowsWith p r given cells unused) : p.fields.length = r.fields.length := by
  rw [h.fields, h.values, length_map, length_map]

theorem ShowsWith.forget {x : Placed} (h : ShowsWith p r given cells (x :: unused)) : ShowsWith p r given cells unused :=
  { h with laid := h.laid.forget }

theorem addPmsgString_shows (h : ShowsWith p r given cells unused) (hs : 0 ∉ s) :
    (Pool.addPmsgString p s = some (none, p) ∧ addPmsgString r s = (none, r)) ∨
    ∃ q, Pool.addPmsgString p s = some (some p.msgLen, q) ∧
      addPmsgString r s = (some s, { r with msgLen := r.msgLen + (s.length + 1) }) ∧
      ShowsWith q { r with msgLen := r.msgLen + (s.length + 1) } given cells ((p.msgLen, s) :: unused) := by
  unfold Pool.addPmsgString addPmsgString
  rw [← h.maxLen, ← h.msgLen]
  by_cases hfull : p.maxLen < p.msgLen + (s.length + 1)
  · exact .inl ⟨if_pos hfull, if_pos hfull⟩
  · have hfit : p.msgLen + (s ++ [0]).length ≤ p.mem.length := by
      rw [length_append, length_singleton, h.size]
      omega
    have hm := storeAt_eq hfit
    rw [if_neg hfull, if_neg hfull, hm]
    refine .inr ⟨_, rfl, rfl, ?_⟩
    exact { h with
      maxLen := rfl
      size := (storeAt_cases hm).2.1.trans h.size
      msgLen := rfl
      room := Nat.le_of_not_lt hfull
      laid := h.laid.push hs hm }

theorem ShowsWith.give {x : Placed} (h : ShowsWith p r given cells [x]) :
    ShowsWith { p with given := p.given ++ [x.1] } r (given ++ [x]) cells [] :=
  { h with
    protoId := h.protoId.mono (subset_append_left _ _)
    reason := h.reason.mono (subset_append_left _ _)
    callers := by rw [h.callers, map_append, map_singleton]
    laid := by
      refine h.laid.perm ?_
      rw [append_assoc]
      show (x :: (given ++ cellsOf cells)).Perm (given ++ x :: cellsOf cells)
      exact perm_middle.symm }

theorem ShowsWith.append {n v : Placed} {unused : List Placed} (h : ShowsWith p r given cells unused)
    (hperm : unused.Perm [n, v]) :
    ShowsWith { p with fields := p.fields ++ [(n.1, v.1)] } { r with fields := r.fields ++ [(n.2, v.2)] } given
      (cells ++ [(n, v)]) [] :=
  { h with
    fields := by rw [h.fields, map_append, map_singleton]
    values := by rw [h.values, map_append, map_singleton]
    laid := by
      have hcells : cellsOf (cells ++ [(n, v)]) = cellsOf cells ++ [n, v] := by simp [cellsOf]
      refine h.laid.perm ?_
      rw [hcells, nil_append, ← append_assoc given]
      exact (hperm.append_right _).trans perm_append_comm }

theorem Shows.addHeader (h : Shows p r) (hn : 0 ∉ name) (hv : 0 ∉ value) :
    ∃ q, Pool.addHeader p name value = some ((Rtsp.addHeader r name value).1, q) ∧
      Shows q (Rtsp.addHeader r name value).2 := by
  obtain ⟨given, cells, h⟩ := h
  unfold Pool.addHeader Rtsp.addHeader
  rw [h.length_fields]
  by_cases hcount : r.fields.length = maxFields
  · rw [if_pos hcount, if_pos hcount]
    exact ⟨p, rfl, given, cells, h⟩
  · rw [if_neg hcount, if_neg hcount]
    rcases addPmsgString_shows h hn with ⟨hp, hr⟩ | ⟨q, hp, hr, h₁⟩
    · rw [hp, hr]
      exact ⟨p, rfl, given, cells, h⟩
    · rw [hp, hr]
      dsimp
      rcases addPmsgString_shows h₁ hv with ⟨hp, hr⟩ | ⟨q', hp, hr, h₂⟩
      · rw [hp, hr]
        exact ⟨q, rfl, given, cells, h₁.forget⟩
      · rw [hp, hr]
        exact ⟨_, rfl, given, _, h₂.append (List.Perm.swap ..)⟩

theorem vsnprintf_shows (h : ShowsWith p r given cells []) (htext : 0 ∉ text) :
    ∃ mem, Pool.vsnprintf p.mem p.msgLen (p.maxLen - p.msgLen) text = some mem ∧
      ShowsWith { p with mem := mem } r given cells [] ∧
      (p.msgLen + text.length < p.maxLen →
        ShowsWith { p with mem := mem, msgLen := p.msgLen + (text.length + 1) }
          { r with msgLen := r.msgLen + (text.length + 1) } given cells [(p.msgLen, text)]) := by
  have hsize := h.size
  by_cases hfull : p.maxLen - p.msgLen = 0
  · exact ⟨p.mem, if_pos hfull, h, fun hlt => by omega⟩
  · have hfit : p.msgLen + (text.take (p.maxLen - p.msgLen - 1) ++ [0]).length ≤ p.mem.length := by
      rw [length_append, length_singleton, length_take]
      omega
    have hm := storeAt_eq hfit
    refine ⟨_, (if_neg hfull).trans hm, ?_, fun hlt => ?_⟩
    · exact { h with
        size := (storeAt_cases hm).2.1.trans hsize
        laid := h.laid.above (by omega) hm }
    · have hwhole : text.take (p.maxLen - p.msgLen - 1) = text := take_of_length_le (by omega)
      rw [hwhole] at hm ⊢
      exact { h with
        size := (storeAt_cases hm).2.1.trans hsize
        msgLen := congrArg (· + (text.length + 1)) h.msgLen
        room := hlt
        laid := h.laid.push htext hm }

theorem Shows.addHeaderPrintf (h : Shows p r) (hn : 0 ∉ name) (ht : 0 ∉ text) :
    ∃ q, Pool.addHeaderPrintf p name text = some ((Rtsp.addHeaderPrintf r name text).1, q) ∧
      Shows q (Rtsp.addHeaderPrintf r name text).2 := by
  obtain ⟨given, cells, h⟩ := h
  obtain ⟨mem, hmem, h₀, htextIn⟩ := vsnprintf_shows h ht
  unfold Pool.addHeaderPrintf Rtsp.addHeaderPrintf
  rw [if_neg (Nat.not_lt.mpr h.room), hmem, bind_some, h.length_fields]
  by_cases hcount : r.fields.length = maxFields
  · rw [if_pos hcount, if_pos hcount]
    exact ⟨_, rfl, given, cells, h₀⟩
  · rw [if_neg hcount, if_neg hcount]
    have hsame : p.maxLen ≤ p.msgLen + text.length ↔ r.maxLen ≤ r.msgLen + text.length := by rw [h.maxLen, h.msgLen]
    by_cases hfull : p.maxLen ≤ p.msgLen + text.length
    · rw [if_pos hfull, if_pos (hsame.mp hfull)]
      exact ⟨_, rfl, given, cells, h₀⟩
    · rw [if_neg hfull, if_neg (mt hsame.mpr hfull)]
      have h₁ := htextIn (by omega)
      rcases addPmsgString_shows h₁ hn with ⟨hp, hr⟩ | ⟨q, hp, hr, h₂⟩
      · rw [hp, hr]
        exact ⟨_, rfl, given, cells, h₁.forget⟩
      · rw [hp, hr]
        exact ⟨_, rfl, given, _, h₂.append (List.Perm.refl _)⟩

theorem fieldIdx_shows {mem : Str} (hstr : ∀ x ∈ cells, strAt mem x.1.1 = some x.1.2) (name : Str) :
    Pool.fieldIdx mem name (cells.map fun x => (x.1.1, x.2.1)) =
      some ((cells.map fun x => (x.1.2, x.2.2)).findIdx? fun f => caseEq f.1 name) := by
  induction cells with
  | nil => rfl
  | cons x cells ih =>
    rw [forall_mem_cons] at hstr
    rw [map_cons, map_cons, Pool.fieldIdx, hstr.1, bind_some, ih hstr.2, List.findIdx?_cons]
    split
    · rfl
    · rfl

theorem ShowsWith.fieldIdx (h : ShowsWith p r given cells []) (name : Str) :
    Pool.fieldIdx p.mem name p.fields = some (r.fields.findIdx? fun f => caseEq f.1 name) := by
  rw [h.fields, h.values]
  refine fieldIdx_shows (fun x hx => h.laid.str _ ?_) name
  exact mem_append_right _ (mem_append_right _ (mem_flatMap.mpr ⟨x, hx, mem_cons_self⟩))

theorem value_first (given A' : List Placed) (A B : List (Placed × Placed)) (n v : Placed) :
    (A' ++ (given ++ cellsOf (A ++ (n, v) :: B))).Perm (v :: (A' ++ (given ++ (cellsOf A ++ n :: cellsOf B)))) := by
  have hsplit : A' ++ (given ++ cellsOf (A ++ (n, v) :: B)) = (A' ++ (given ++ (cellsOf A ++ [n]))) ++ v :: cellsOf B := by
    simp [cellsOf]
  have hjoin : A' ++ (given ++ (cellsOf A ++ n :: cellsOf B)) = (A' ++ (given ++ (cellsOf A ++ [n]))) ++ cellsOf B := by
    simp
  rw [hsplit, hjoin]
  exact perm_middle

theorem ShowsWith.setValue {A B : List (Placed × Placed)} {n v v' : Placed} {unused : List Placed}
    (h : ShowsWith p r given (A ++ (n, v) :: B) unused) {mem : Str} (hmem : mem.length = p.maxLen)
    (hlaid : Laid mem p.msgLen (v' :: (given ++ (cellsOf A ++ n :: cellsOf B)))) :
    ShowsWith { p with mem := mem, fields := p.fields.set A.length (n.1, v'.1) }
      { r with fields := r.fields.set A.length (n.2, v'.2) } given (A ++ (n, v') :: B) [] :=
  { h with
    size := hmem
    fields := by simp [h.fields]
    values := by simp [h.values]
    laid := hlaid.perm (value_first given [] A B n v').symm }

theorem Shows.replaceHeader (h : Shows p r) (hn : 0 ∉ name) (hv : 0 ∉ value) :
    ∃ q, Pool.replaceHeader p name value = some ((Rtsp.replaceHeader r name value).1, q) ∧
      Shows q (Rtsp.replaceHeader r name value).2 := by
  obtain ⟨given, cells, hw⟩ := h
  unfold Pool.replaceHeader Rtsp.replaceHeader
  rw [hw.fieldIdx, bind_some]
  cases hi : r.fields.findIdx? fun f => caseEq f.1 name with
  | none => exact Shows.addHeader ⟨given, cells, hw⟩ hn hv
  | some i =>
    -- the header that is found, between the others
    obtain ⟨A, ⟨n, v⟩, B, rfl, rfl⟩ : ∃ A x B, cells = A ++ x :: B ∧ A.length = i := by
      obtain ⟨hlt, -⟩ := List.findIdx?_eq_some_iff_getElem.mp hi
      rw [hw.values, length_map] at hlt
      exact ⟨cells.take i, cells[i], cells.drop (i + 1), by simp, length_take_of_le (by omega)⟩
    have hptr : p.fields.getD A.length (0, 0) = (n.1, v.1) := by simp [hw.fields]
    have hval : r.fields.getD A.length ([], []) = (n.2, v.2) := by simp [hw.values]
    have hfirst := hw.laid.perm (value_first given [] A B n v)
    have hold : strAt p.mem v.1 = some v.2 := hfirst.str v mem_cons_self
    dsimp only
    rw [hptr, hval]
    rw [hold, bind_some]
    by_cases hshort : v.2.length < value.length
    · rw [if_pos hshort, if_pos hshort]
      rcases addPmsgString_shows hw hv with ⟨hp, hr⟩ | ⟨q, hp, hr, h₁⟩
      · rw [hp, hr]
        exact ⟨_, rfl, given, _, hw⟩
      · rw [hp, hr]
        have hlaid := (h₁.laid.perm (value_first given [(p.msgLen, value)] A B n v)).forget
        exact ⟨_, rfl, given, _, h₁.setValue h₁.size hlaid⟩
    · rw [if_neg hshort, if_neg hshort]
      have hbelow := hfirst.below v mem_cons_self
      have hroom := hw.room
      have hsize := hw.size
      have hfit : v.1 + (value ++ [0]).length ≤ p.mem.length := by
        rw [length_append, length_singleton]
        omega
      have hm := storeAt_eq hfit
      rw [hm]
      refine ⟨_, rfl, given, A ++ (n, (v.1, value)) :: B, ?_⟩
      have hset := hw.setValue ((storeAt_cases hm).2.1.trans hsize)
        (hfirst.overwrite hv (by omega) hm)
      have hsame : p.fields.set A.length (n.1, v.1) = p.fields := by simp [hw.fields]
      rw [hsame] at hset
      exact hset

theorem Shows.copyHeaders {src : List (Str × Str)} (hsrc : ∀ f ∈ src, 0 ∉ f.1 ∧ 0 ∉ f.2) (h : Shows p r) (name : Str) :
    ∃ q, Pool.copyHeaders p src name = some q ∧
      Shows q ((src.filter fun f => caseEq f.1 name).foldl (fun r f => (Rtsp.addHeader r f.1 f.2).2) r) := by
  unfold Pool.copyHeaders
  have hfound : ∀ f ∈ src.filter fun f => caseEq f.1 name, 0 ∉ f.1 ∧ 0 ∉ f.2 :=
    fun f hf => hsrc f (mem_of_mem_filter hf)
  generalize src.filter (fun f => caseEq f.1 name) = found at hfound
  induction found generalizing p r with
  | nil => exact ⟨p, rfl, h⟩
  | cons f found ih =>
    rw [forall_mem_cons] at hfound
    obtain ⟨q, hq, hshows⟩ := h.addHeader hfound.1.1 hfound.1.2
    rw [foldlM_cons, hq]
    exact ih hshows hfound.2

end Simulation

/-! ## Sequences of calls -/

inductive MsgOp
  | string (s : CStr)
  /-- `proto_id = add_pmsg_string(..)` -/
  | protoId (s : CStr)
  /-- `sl.stat.reason = add_pmsg_string(..)` -/
  | reason (s : CStr)
  | header (name value : CStr)
  | headerPrintf (name text : CStr)
  | replace (name value : CStr)
  /-- `copy_headers` from a message with these headers -/
  | copy (src : List (CStr × CStr)) (name : CStr)

def srcFields (src : List (CStr × CStr)) : List (Str × Str) := src.map fun f => (f.1.1, f.2.1)

def PoolMsg.apply (p : PoolMsg) : MsgOp → Option PoolMsg
  | .string s => (Pool.addPmsgString p s).map fun x => { x.2 with given := x.2.given ++ x.1.toList }
  | .protoId s => (Pool.addPmsgString p s).map fun x => { x.2 with protoId := x.1, given := x.2.given ++ x.1.toList }
  | .reason s => (Pool.addPmsgString p s).map fun x => { x.2 with reason := x.1, given := x.2.given ++ x.1.toList }
  | .header name value => (Pool.addHeader p name value).map Prod.snd
  | .headerPrintf name text => (Pool.addHeaderPrintf p name text).map Prod.snd
  | .replace name value => (Pool.replaceHeader p name value).map Prod.snd
  | .copy src name => Pool.copyHeaders p (srcFields src) name

def Resp.apply (r : Resp) : MsgOp → Resp
  | .string s => (addPmsgString r s).2
  | .protoId s => { (addPmsgString r s).2 with protoId := (addPmsgString r s).1 }
  | .reason s => { (addPmsgString r s).2 with reason := (addPmsgString r s).1 }
  | .header name value => (addHeader r name value).2
  | .headerPrintf name text => (addHeaderPrintf r name text).2
  | .replace name value => (replaceHeader r name value).2
  | .copy src name =>
    ((srcFields src).filter fun f => caseEq f.1 name.1).foldl (fun r f => (addHeader r f.1 f.2).2) r

section

variable {p : PoolMsg} {r : Resp}

theorem Shows.give (h : Shows p r) (s : CStr) :
    ∃ o q given cells, Pool.addPmsgString p s = some (o, q) ∧ PtrShows given o (addPmsgString r s).1 ∧
      ShowsWith { q with given := q.given ++ o.toList } (addPmsgString r s).2 given cells [] := by
  obtain ⟨given, cells, h⟩ := h
  rcases addPmsgString_shows h s.2 with ⟨hp, hr⟩ | ⟨q, hp, hr, h'⟩
  · rw [hp, hr]
    refine ⟨none, p, given, cells, rfl, trivial, ?_⟩
    rw [toList_none, append_nil]
    exact h
  · rw [hp, hr]
    exact ⟨some p.msgLen, q, _, cells, rfl, mem_append_right _ mem_cons_self, h'.give⟩

theorem apply_shows (h : Shows p r) (op : MsgOp) : ∃ q, p.apply op = some q ∧ Shows q (r.apply op) := by
  cases op with
  | string s =>
    obtain ⟨o, q, given, cells, hq, -, hw⟩ := h.give s
    exact ⟨_, congrArg (Option.map _) hq, given, cells, hw⟩
  | protoId s =>
    obtain ⟨o, q, given, cells, hq, ho, hw⟩ := h.give s
    exact ⟨_, congrArg (Option.map _) hq, given, cells, { hw with protoId := ho }⟩
  | reason s =>
    obtain ⟨o, q, given, cells, hq, ho, hw⟩ := h.give s
    exact ⟨_, congrArg (Option.map _) hq, given, cells, { hw with reason := ho }⟩
  | header name value =>
    obtain ⟨q, hq, hw⟩ := h.addHeader name.2 value.2
    exact ⟨q, congrArg (Option.map _) hq, hw⟩
  | headerPrintf name text =>
    obtain ⟨q, hq, hw⟩ := h.addHeaderPrintf name.2 text.2
    exact ⟨q, congrArg (Option.map _) hq, hw⟩
  | replace name value =>
    obtain ⟨q, hq, hw⟩ := h.replaceHeader name.2 value.2
    exact ⟨q, congrArg (Option.map _) hq, hw⟩
  | copy src name =>
    refine h.copyHeaders (fun f hf => ?_) name
    obtain ⟨g, -, rfl⟩ := List.mem_map.mp hf
    exact ⟨g.1.2, g.2.2⟩

/-- **The pool shows the response** after any calls. -/
theorem run_shows (h : Shows p r) (ops : List MsgOp) :
    ∃ q, run PoolMsg.apply p ops = some q ∧ Shows q (ops.foldl Resp.apply r) := by
  induction ops generalizing p r with
  | nil => exact ⟨p, rfl, h⟩
  | cons op ops ih =>
    obtain ⟨q, hq, hshows⟩ := apply_shows h op
    obtain ⟨q', hq', hshows'⟩ := ih hshows
    refine ⟨q', ?_, hshows'⟩
    rw [run, hq]
    exact hq'

end

/-! ## The strings of a response fit into its pool -/

def poolSize (s : Option Str) : Nat := (s.map fun s => s.length + 1).getD 0

def fieldsSize (fields : List (Str × Str)) : Nat := (fields.map fun f => f.1.length + f.2.length + 2).sum

/-- The strings in use have their own bytes in the pool, and the header table is not overfull. -/
structure Resp.Fits (r : Resp) (size : Nat) : Prop where
  count : r.fields.length ≤ maxFields
  used : poolSize r.protoId + poolSize r.reason + fieldsSize r.fields ≤ r.msgLen
  room : r.msgLen ≤ r.maxLen
  pool : r.maxLen = size

theorem newPmsg_fits (size code : Nat) : (newPmsg size code).Fits size :=
  ⟨Nat.zero_le _, Nat.le_refl _, Nat.zero_le _, rfl⟩

section

variable {r : Resp} {size : Nat} {s name value : Str}

theorem Resp.Fits.putHeader (h : r.Fits size) {first second : Str}
    (hlen : first.length + second.length = name.length + value.length) :
    (putHeader r first second (name, value)).2.Fits size := by
  have hcount := h.count
  have hused := h.used
  unfold Rtsp.putHeader
  split
  · exact h
  · rename_i hfirst
    obtain ⟨hfull, hroom⟩ := not_or.mp hfirst
    split
    · exact ⟨hcount, Nat.le_trans hused (Nat.le_add_right ..), Nat.le_of_not_lt hroom, h.pool⟩
    · rename_i hboth
      refine ⟨?_, ?_, Nat.le_of_not_lt hboth, h.pool⟩
      · simp only [length_append, length_singleton]
        omega
      · simp only [fieldsSize, map_append, map_singleton, sum_append, sum_singleton] at hused ⊢
        omega

theorem Resp.Fits.addHeader (h : r.Fits size) (name value : Str) : (addHeader r name value).2.Fits size := by
  rw [addHeader_eq_putHeader]
  exact h.putHeader rfl

theorem Resp.Fits.replaceHeader (h : r.Fits size) (name value : Str) : (replaceHeader r name value).2.Fits size := by
  rcases replaceHeader_cases r name value with ⟨-, he⟩ | ⟨A, f, B, hf, -, -, he | ⟨n, he, hn⟩⟩
  · rw [he]
    exact h.addHeader name value
  · rw [he]
    exact h
  · have hcount := h.count
    have hused := h.used
    have hroom := h.room
    rw [hf] at hcount hused
    rw [he]
    simp only [fieldsSize, length_append, length_cons, map_append, map_cons, sum_append,
      sum_cons] at hcount hused
    refine ⟨?_, ?_, ?_, h.pool⟩
    · simp only [length_append, length_cons]
      exact hcount
    · simp only [fieldsSize, map_append, map_cons, sum_append, sum_cons]
      omega
    · dsimp only
      omega

theorem Resp.Fits.addPmsgString (h : r.Fits size) (s : Str) :
    (addPmsgString r s).2 = { r with msgLen := r.msgLen + poolSize (addPmsgString r s).1 } ∧
      r.msgLen + poolSize (addPmsgString r s).1 ≤ r.maxLen := by
  rcases addPmsgString_eq r s with he | ⟨hroom, he⟩
  · rw [he]
    exact ⟨rfl, h.room⟩
  · rw [he]
    exact ⟨rfl, hroom⟩

theorem Resp.Fits.apply (h : r.Fits size) (op : MsgOp) : (r.apply op).Fits size := by
  have hused := h.used
  cases op with
  | string s =>
    obtain ⟨he, hroom⟩ := h.addPmsgString s
    dsimp only [Resp.apply]
    rw [he]
    exact ⟨h.count, Nat.le_trans hused (Nat.le_add_right ..), hroom, h.pool⟩
  | protoId s =>
    obtain ⟨he, hroom⟩ := h.addPmsgString s
    dsimp only [Resp.apply]
    rw [he]
    refine ⟨h.count, ?_, hroom, h.pool⟩
    dsimp only
    omega
  | reason s =>
    obtain ⟨he, hroom⟩ := h.addPmsgString s
    dsimp only [Resp.apply]
    rw [he]
    refine ⟨h.count, ?_, hroom, h.pool⟩
    dsimp only
    omega
  | header name value => exact h.addHeader _ _
  | headerPrintf name text =>
    dsimp only [Resp.apply]
    rw [addHeaderPrintf_eq_putHeader]
    exact h.putHeader (by omega)
  | replace name value => exact h.replaceHeader _ _
  | copy src name =>
    dsimp only [Resp.apply]
    generalize (srcFields src).filter (fun f => caseEq f.1 name.1) = found
    induction found generalizing r with
    | nil => exact h
    | cons f found ih => exact ih (h.addHeader f.1 f.2) (h.addHeader f.1 f.2).used

theorem Resp.Fits.applyAll (h : r.Fits size) (ops : List MsgOp) : (ops.foldl Resp.apply r).Fits size := by
  induction ops generalizing r with
  | nil => exact h
  | cons op ops ih => exact ih (h.apply op)

end

/-! ## The pool keeps its strings apart -/

def PoolMsg.pointers (p : PoolMsg) : List Nat := p.given ++ p.fields.flatMap fun f => [f.1, f.2]

/-- Every pointer leads to a string that ends before `msg_len`, and the strings of two pointers do not overlap. -/
def PoolMsg.StringsApart (p : PoolMsg) : Prop :=
  (∀ o ∈ p.pointers, ∃ s, strAt p.mem o = some s ∧ o + s.length < p.msgLen) ∧
    p.pointers.Pairwise fun a b => ∀ s t, strAt p.mem a = some s → strAt p.mem b = some t → Apart (a, s) (b, t)

/-- `get_header` finds the new value, and a header of another name has the strings that it had. -/
def PoolMsg.Replaced (p q : PoolMsg) (name value : Str) : Prop :=
  (∃ o, Pool.getHeader q name = some (some o) ∧ strAt q.mem o = some value) ∧
    ∀ (i : Nat) (f : Nat × Nat) s, p.fields[i]? = some f → strAt p.mem f.1 = some s → caseEq s name = false →
      ∃ g : Nat × Nat, q.fields[i]? = some g ∧ strAt q.mem g.1 = some s ∧ strAt q.mem g.2 = strAt p.mem f.2

section

variable {p q : PoolMsg} {r : Resp} {given : List Placed} {cells : List (Placed × Placed)}

theorem ShowsWith.pointers (h : ShowsWith p r given cells []) : p.pointers = (given ++ cellsOf cells).map Prod.fst := by
  rw [PoolMsg.pointers, h.callers, h.fields, map_append, cellsOf, map_flatMap, flatMap_map]
  rfl

theorem Shows.stringsApart (h : Shows p r) : p.StringsApart := by
  obtain ⟨given, cells, h⟩ := h
  have hlaid : Laid p.mem p.msgLen (given ++ cellsOf cells) := h.laid
  unfold PoolMsg.StringsApart
  rw [h.pointers]
  constructor
  · intro o ho
    obtain ⟨x, hx, rfl⟩ := List.mem_map.mp ho
    exact ⟨x.2, hlaid.str x hx, hlaid.below x hx⟩
  · rw [pairwise_map]
    refine hlaid.apart.imp_of_mem fun {x y} hx hy hxy s t hs ht => ?_
    cases (hlaid.str x hx).symm.trans hs
    cases (hlaid.str y hy).symm.trans ht
    exact hxy

theorem ShowsWith.strings (h : ShowsWith p r given cells []) {x : Placed × Placed} (hx : x ∈ cells) :
    strAt p.mem x.1.1 = some x.1.2 ∧ strAt p.mem x.2.1 = some x.2.2 := by
  have hmem : ∀ y ∈ [x.1, x.2], y ∈ given ++ cellsOf cells :=
    fun y hy => mem_append_right _ (mem_flatMap.mpr ⟨x, hx, hy⟩)
  exact ⟨h.laid.str _ (hmem _ (by simp)), h.laid.str _ (hmem _ (by simp))⟩

theorem fields_putHeader {first second : Str} {f : Str × Str} (h : (putHeader r first second f).1) :
    (putHeader r first second f).2.fields = r.fields ++ [f] := by
  unfold putHeader at *
  split at h
  · cases h
  · split at h
    · cases h
    · rename_i hfirst hboth
      rw [if_neg hfirst, if_neg hboth]

theorem replaceHeader_fields {name value : Str} (h : (replaceHeader r name value).1) :
    (∃ (i : Nat) (f : Str), (replaceHeader r name value).2.fields.findIdx? (fun f => caseEq f.1 name) = some i ∧
      (replaceHeader r name value).2.fields[i]? = some (f, value)) ∧
    ∀ (i : Nat) (f : Str × Str), r.fields[i]? = some f → caseEq f.1 name = false →
      (replaceHeader r name value).2.fields[i]? = some f := by
  rcases replaceHeader_cases r name value with ⟨hnone, he⟩ | ⟨A, f, B, hf, hA, hname, he | ⟨n, he, -⟩⟩
  · rw [he, addHeader_eq_putHeader] at h
    rw [he, addHeader_eq_putHeader, fields_putHeader h]
    refine ⟨⟨r.fields.length, name, ?_, by simp⟩, fun i f hi hne => ?_⟩
    · have hrefl : caseEq name name := caseEq_iff.mpr rfl
      have hbefore : r.fields.findIdx? (fun f => caseEq f.1 name) = none := List.findIdx?_eq_none_iff.mpr hnone
      simp [List.findIdx?_append, hbefore, List.findIdx?_cons, hrefl]
    · rw [List.getElem?_append_left (List.getElem?_eq_some_iff.mp hi).1]
      exact hi
  · rw [he] at h
    cases h
  · rw [he, hf]
    refine ⟨⟨A.length, f.1, ?_, by simp⟩, fun i g hi hne => ?_⟩
    · have hbefore : A.findIdx? (fun f => caseEq f.1 name) = none := List.findIdx?_eq_none_iff.mpr hA
      simp [List.findIdx?_append, hbefore, List.findIdx?_cons, hname]
    · -- the header that was changed has the name, so `i` is another one
      by_cases hiA : i = A.length
      · subst hiA
        rw [List.getElem?_append_right (by omega), Nat.sub_self, List.getElem?_cons_zero] at hi
        cases hi
        rw [hname] at hne
        cases hne
      · rw [← hi]
        rcases Nat.lt_or_gt_of_ne hiA with hlt | hgt
        · rw [List.getElem?_append_left hlt, List.getElem?_append_left hlt]
        · rw [List.getElem?_append_right (by omega), List.getElem?_append_right (Nat.le_of_lt hgt)]
          obtain ⟨k, hk⟩ := Nat.exists_eq_add_of_lt hgt
          have hsub : i - A.length = k + 1 := by omega
          rw [hsub, List.getElem?_cons_succ, List.getElem?_cons_succ]

theorem Shows.replaced (hp : Shows p r) {name value : Str} (hq : Shows q (Rtsp.replaceHeader r name value).2)
    (h : (Rtsp.replaceHeader r name value).1) : p.Replaced q name value := by
  obtain ⟨given, cells, hp⟩ := hp
  obtain ⟨given', cells', hq⟩ := hq
  obtain ⟨⟨i, n, hidx, hi⟩, hother⟩ := replaceHeader_fields h
  have hcell : ∀ {i : Nat} {f : Str × Str}, (Rtsp.replaceHeader r name value).2.fields[i]? = some f →
      ∃ x, cells'[i]? = some x ∧ (x.1.2, x.2.2) = f := by
    intro i f hi
    rw [hq.values, List.getElem?_map] at hi
    exact map_eq_some_iff.mp hi
  refine ⟨?_, fun i f s hif hs hne => ?_⟩
  · obtain ⟨x, hx, hxf⟩ := hcell hi
    have hptr : q.fields.getD i (0, 0) = (x.1.1, x.2.1) := by
      rw [List.getD_eq_getElem?_getD, hq.fields, List.getElem?_map, hx]
      rfl
    refine ⟨x.2.1, ?_, ?_⟩
    · rw [Pool.getHeader, hq.fieldIdx, hidx, map_some, map_some, hptr]
    · rw [(hq.strings (List.mem_of_getElem? hx)).2]
      exact congrArg (fun f : Str × Str => some f.2) hxf
  · rw [hp.fields, List.getElem?_map] at hif
    obtain ⟨x, hx, rfl⟩ := map_eq_some_iff.mp hif
    obtain ⟨hxn, hxv⟩ := hp.strings (List.mem_of_getElem? hx)
    cases hxn.symm.trans hs
    have hri : r.fields[i]? = some (x.1.2, x.2.2) := by rw [hp.values, List.getElem?_map, hx, map_some]
    obtain ⟨y, hy, hyf⟩ := hcell (hother i _ hri hne)
    obtain ⟨hyn, hyv⟩ := hq.strings (List.mem_of_getElem? hy)
    rw [Prod.mk.injEq] at hyf
    refine ⟨(y.1.1, y.2.1), ?_, ?_, ?_⟩
    · rw [hq.fields, List.getElem?_map, hy, map_some]
    · rw [hyn, hyf.1]
    · rw [hyv, hxv, hyf.2]

end

/-- **The pool of a message is sound** after any calls with any strings. -/
theorem pool_integrity (mem : Str) (ops : List MsgOp) : ∃ p, run PoolMsg.apply (Pool.newPmsg mem) ops = some p ∧
      p.maxLen = mem.length ∧ p.mem.length = mem.length ∧ p.msgLen ≤ p.maxLen ∧ p.fields.length ≤ 32 ∧
      p.StringsApart ∧
      ∀ name value : CStr, ∃ ok q, Pool.replaceHeader p name value = some (ok, q) ∧
        (ok = true → p.Replaced q name value) := by
  obtain ⟨p, hrun, hshows⟩ := run_shows (shows_newPmsg mem 0) ops
  have hfits := (newPmsg_fits mem.length 0).applyAll ops
  obtain ⟨given, cells, hw⟩ := id hshows
  have hsize : p.maxLen = mem.length := hw.maxLen.trans hfits.pool
  refine ⟨p, hrun, hsize, hw.size.trans hsize, hw.room, ?_, hshows.stringsApart, fun name value => ?_⟩
  · rw [hw.length_fields]
    exact hfits.count
  · obtain ⟨q, hq, hq'⟩ := hshows.replaceHeader name.2 value.2
    exact ⟨_, q, hq, hshows.replaced hq'⟩

/-! ## Calls that fail -/

inductive HeaderCall
  | add (name value : Str)
  | addPrintf (name text : Str)
  | replace (name value : Str)
deriving DecidableEq

def HeaderCall.apply (r : Resp) : HeaderCall → Bool × Resp
  | .add name value => addHeader r name value
  | .addPrintf name text => addHeaderPrintf r name text
  | .replace name value => replaceHeader r name value

/-- Its length, its headers, and every call that would have succeeded still does. -/
def NoTrace (r r' : Resp) : Prop :=
  r'.msgLen = r.msgLen ∧ r'.fields.length = r.fields.length ∧ r'.fields = r.fields ∧
    ∀ d : HeaderCall, (d.apply r).1 = true → (d.apply r').1 = true

def FirstOnly (r : Resp) (first second : Str) : Prop :=
  r.fields.length ≠ maxFields ∧ r.msgLen + (first.length + 1) ≤ r.maxLen ∧
    r.maxLen < r.msgLen + (first.length + 1) + (second.length + 1)

instance (r : Resp) (first second : Str) : Decidable (FirstOnly r first second) := inferInstanceAs (Decidable (_ ∧ _))

/-- The call puts its first string into the pool and finds no room for the second. `replace_header` does so only if there is
no header of that name. -/
def HeaderCall.HalfFits (r : Resp) : HeaderCall → Prop
  | .add name value => FirstOnly r name value
  | .addPrintf name text => FirstOnly r text name
  | .replace name value => (∀ f ∈ r.fields, caseEq f.1 name = false) ∧ FirstOnly r name value

theorem NoTrace.rfl {r : Resp} : NoTrace r r := ⟨Eq.refl _, Eq.refl _, Eq.refl _, fun _ h => h⟩

theorem putHeader_noTrace_iff (r : Resp) (first second : Str) (f : Str × Str) :
    ((putHeader r first second f).1 = false → NoTrace r (putHeader r first second f).2) ↔ ¬ FirstOnly r first second := by
  unfold putHeader FirstOnly
  by_cases hfirst : r.fields.length = maxFields ∨ r.maxLen < r.msgLen + (first.length + 1)
  · rw [if_pos hfirst]
    refine iff_of_true (fun _ => .rfl) ?_
    rintro ⟨hcount, hroom, -⟩
    rcases hfirst with hfull | hlt
    · exact hcount hfull
    · omega
  · rw [if_neg hfirst]
    obtain ⟨hcount, hroom⟩ := not_or.mp hfirst
    by_cases hboth : r.maxLen < r.msgLen + (first.length + 1) + (second.length + 1)
    · rw [if_pos hboth]
      refine iff_of_false (fun h => ?_) (fun h => h ⟨hcount, by omega, hboth⟩)
      have hlen := (h rfl).1
      dsimp only at hlen
      omega
    · rw [if_neg hboth]
      exact iff_of_true nofun (fun h => hboth h.2.2)

/-- **A header call that fails leaves no trace** unless one of its two strings fits. -/
theorem failed_header_no_trace_iff (r : Resp) (c : HeaderCall) :
    ((c.apply r).1 = false → NoTrace r (c.apply r).2) ↔ ¬ c.HalfFits r := by
  cases c with
  | add name value =>
    dsimp only [HeaderCall.apply, HeaderCall.HalfFits]
    rw [addHeader_eq_putHeader]
    exact putHeader_noTrace_iff ..
  | addPrintf name text =>
    dsimp only [HeaderCall.apply, HeaderCall.HalfFits]
    rw [addHeaderPrintf_eq_putHeader]
    exact putHeader_noTrace_iff ..
  | replace name value =>
    dsimp only [HeaderCall.apply, HeaderCall.HalfFits]
    rcases replaceHeader_cases r name value with ⟨hnone, he⟩ | ⟨A, f, B, hf, -, hname, he⟩
    · rw [he, addHeader_eq_putHeader, putHeader_noTrace_iff]
      exact not_congr ⟨fun h => ⟨hnone, h⟩, fun h => h.2⟩
    · refine iff_of_true (fun hfail => ?_) ?_
      · rcases he with he | ⟨n, he, -⟩
        · rw [he]
          exact .rfl
        · rw [he] at hfail
          cases hfail
      · rintro ⟨hnone, -⟩
        have hmem : f ∈ r.fields := hf ▸ mem_append_right _ mem_cons_self
        rw [hnone f hmem] at hname
        cases hname

theorem failed_header_leaves_name : let r : Resp := { newPmsg 512 200 with msgLen := 500 }
    let c := HeaderCall.add (bytes "Location") (bytes "/index.html")
    let d := HeaderCall.add (bytes "A") (bytes "b")
    (c.apply r).1 = false ∧ (c.apply r).2.msgLen = 509 ∧ (d.apply r).1 ∧ (d.apply (c.apply r).2).1 = false ∧
      ¬ NoTrace r (c.apply r).2 := by
  intro r c d
  have hafter : (d.apply (c.apply r).2).1 = false := by decide
  refine ⟨by decide, by decide, by decide, hafter, fun h => ?_⟩
  rw [h.2.2.2 d (by decide)] at hafter
  cases hafter

/-! ## The text of a reply -/

namespace Pool

/-- The string, or what the C library writes for `NULL`. -/
def printed (mem : Str) : Option Nat → Option Str
  | none => some (bytes "(null)")
  | some o => strAt mem o

def headerLines (mem : Str) : List (Nat × Nat) → Option Str
  | [] => some []
  | f :: fs => (strAt mem f.1).bind fun name => (strAt mem f.2).bind fun value =>
      (headerLines mem fs).map fun rest => fieldLine (name, value) ++ rest

def responseText (p : PoolMsg) (code : Nat) (len : Int) : Option Str :=
  (printed p.mem p.protoId).bind fun protoId => (printed p.mem p.reason).bind fun reason =>
    (headerLines p.mem p.fields).map fun lines => statusLine protoId code reason ++ lines ++
      if 0 ≤ len then bytes "Content-Length: " ++ decimal len ++ bytes "\r\n\r\n" else bytes "\r\n"

end Pool

section

variable {p : PoolMsg} {r : Resp} {given : List Placed} {cells : List (Placed × Placed)}

theorem printed_shows {mem : Str} (hstr : ∀ x ∈ given, strAt mem x.1 = some x.2) :
    ∀ {o : Option Nat} {s : Option Str}, PtrShows given o s → Pool.printed mem o = some (s.getD (bytes "(null)"))
  | none, none, _ => rfl
  | some _, some _, h => hstr _ h

theorem headerLines_shows {mem : Str} (hstr : ∀ x ∈ cells, strAt mem x.1.1 = some x.1.2 ∧ strAt mem x.2.1 = some x.2.2) :
    Pool.headerLines mem (cells.map fun x => (x.1.1, x.2.1)) =
      some ((cells.map fun x => (x.1.2, x.2.2)).flatMap fieldLine) := by
  induction cells with
  | nil => rfl
  | cons x cells ih =>
    rw [forall_mem_cons] at hstr
    rw [map_cons, Pool.headerLines, hstr.1.1, hstr.1.2, bind_some, bind_some, ih hstr.2]
    rfl

theorem Shows.responseText (h : Shows p r) (code : Nat) (len : Int) : Pool.responseText p code len =
      some (statusLine (r.protoId.getD (bytes "(null)")) code (r.reason.getD (bytes "(null)")) ++
        r.fields.flatMap fieldLine ++
        if 0 ≤ len then bytes "Content-Length: " ++ decimal len ++ bytes "\r\n\r\n" else bytes "\r\n") := by
  obtain ⟨given, cells, h⟩ := h
  have hgiven : ∀ x ∈ given, strAt p.mem x.1 = some x.2 :=
    fun x hx => h.laid.str x (mem_append_right _ (mem_append_left _ hx))
  rw [Pool.responseText, printed_shows hgiven h.protoId, printed_shows hgiven h.reason, h.fields,
    headerLines_shows fun x hx => h.strings hx, h.values]
  rfl

end

theorem length_printed (s : Option Str) : (s.getD (bytes "(null)")).length ≤ poolSize s + 6 := by
  cases s with
  | none => decide
  | some s =>
    simp only [poolSize, map_some, getD_some]
    omega

theorem length_contentLength {len : Int} (hlen : len < 2 ^ 31) :
    (if 0 ≤ len then bytes "Content-Length: " ++ decimal len ++ bytes "\r\n\r\n" else bytes "\r\n").length ≤ 30 := by
  split
  · rename_i hpos
    obtain ⟨n, rfl⟩ := Int.eq_ofNat_of_zero_le hpos
    have hdigits : (decimal n).length ≤ 10 := length_decimal_le (by decide) (by omega)
    have hfront : (bytes "Content-Length: ").length = 16 := rfl
    have hback : (bytes "\r\n\r\n").length = 4 := rfl
    simp only [length_append]
    omega
  · decide

/-- **The text of every reply fits into `buf[2048]`**. -/
theorem reply_text_fits (mem : Str) (hsize : mem.length = 512 ∨ mem.length = 256) (ops : List MsgOp) (code : Nat)
    (hcode : code < 1000) (len : Int) (hlen : len < 2 ^ 31) :
    ∃ p text, run PoolMsg.apply (Pool.newPmsg mem) ops = some p ∧ Pool.responseText p code len = some text ∧
      text.length + 1 ≤ printBufSize := by
  obtain ⟨p, hrun, hshows⟩ := run_shows (shows_newPmsg mem code) ops
  refine ⟨p, _, hrun, hshows.responseText code len, ?_⟩
  have hfits := (newPmsg_fits mem.length code).applyAll ops
  generalize ops.foldl Resp.apply (newPmsg mem.length code) = r at hfits
  have hused := Nat.le_trans hfits.used hfits.room
  have hpool := hfits.pool
  have hcount := hfits.count
  have hproto := length_printed r.protoId
  have hreason := length_printed r.reason
  have hdigits : (decimal code).length ≤ 3 := length_decimal_le (by decide) (by omega)
  have htail := length_contentLength hlen
  rw [length_append, length_append, length_fieldLines]
  simp only [statusLine, length_append, length_cons, length_nil]
  simp only [fieldsSize] at hused
  unfold maxFields at hcount
  unfold printBufSize
  omega

theorem reply_text_fits_described : ∃ p text, run PoolMsg.apply (Pool.newPmsg (List.replicate 512 0))
        [.protoId ⟨bytes "RTSP/1.0", by decide⟩, .reason ⟨bytes "OK", by decide⟩,
          .copy [(⟨bytes "CSeq", by decide⟩, ⟨bytes "2", by decide⟩)] ⟨bytes "CSeq", by decide⟩,
          .header ⟨bytes "Content-Type", by decide⟩ ⟨bytes "application/sdp", by decide⟩,
          .headerPrintf ⟨bytes "Content-Base", by decide⟩ ⟨bytes "rtsp://c/live/", by decide⟩] = some p ∧
      Pool.responseText p 200 460 = some text ∧ text.length + 1 ≤ printBufSize :=
  reply_text_fits (List.replicate 512 0) (.inl length_replicate) _ 200 (by decide) 460 (by decide)

end NuWicam.Rtsp
