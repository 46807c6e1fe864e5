import NuWicam.Rtsp.Digest

/-!
# Responses (`pmsg.c`) and the challenge (`http-auth.c`)

A response is built in a message of fixed size, and a header whose strings do not fit is left out. What a failed call has
already put into the pool stays there.
-/

namespace NuWicam.Rtsp

open Lib

/-- With the strings that its pointers lead to. -/
structure Resp where
  maxLen : Nat
  msgLen : Nat
  protoId : Option Str
  code : Nat
  reason : Option Str
  fields : List (Str × Str)
deriving DecidableEq, Repr

def newPmsg (size code : Nat) : Resp := ⟨size, 0, none, code, none, []⟩

/-- The copy of the string, `none` if there is no room for it, and the message. -/
def addPmsgString (r : Resp) (s : Str) : Option Str × Resp :=
  if r.maxLen < r.msgLen + (s.length + 1) then (none, r) else (some s, { r with msgLen := r.msgLen + (s.length + 1) })

/-- Whether it returned `0`, and the message. -/
def addHeader (r : Resp) (name value : Str) : Bool × Resp :=
  if r.fields.length = maxFields then (false, r)
  else match addPmsgString r name with
    | (none, r) => (false, r)
    | (some name, r) =>
      match addPmsgString r value with
      | (none, r) => (false, r)
      | (some value, r) => (true, { r with fields := r.fields ++ [(name, value)] })

/-- `text` is what the format writes. -/
def addHeaderPrintf (r : Resp) (name text : Str) : Bool × Resp :=
  if r.fields.length = maxFields then (false, r)
  else if r.maxLen ≤ r.msgLen + text.length then (false, r)
  else match addPmsgString { r with msgLen := r.msgLen + (text.length + 1) } name with
    | (none, r) => (false, r)
    | (some name, r) => (true, { r with fields := r.fields ++ [(name, text)] })

/-- The first header of that name gets the value, in its own place where that is long enough. -/
def replaceHeader (r : Resp) (name value : Str) : Bool × Resp :=
  match r.fields.findIdx? fun f => caseEq f.1 name with
  | none => addHeader r name value
  | some i =>
    let f := r.fields.getD i ([], [])
    if f.2.length < value.length then
      match addPmsgString r value with
      | (none, r) => (false, r)
      | (some value, r) => (true, { r with fields := r.fields.set i (f.1, value) })
    else (true, { r with fields := r.fields.set i (f.1, value) })

def copyHeaders (dest : Resp) (src : Pmsg) (name : Str) : Resp :=
  (src.fields.filter fun f => caseEq f.1 name).foldl (fun r f => (addHeader r f.1 f.2).2) dest

def rtspCreateReply (m : Pmsg) (code : Nat) (reason : Str) : Resp :=
  let (protoId, r) := addPmsgString (newPmsg 512 code) (bytes "RTSP/1.0")
  let (reason, r) := addPmsgString r reason
  copyHeaders { r with protoId := protoId, reason := reason } m (bytes "CSeq")

/-- With a nonce made by `create_nonce` -/
def addDigestChallenge (r : Resp) (realm nonce : Str) (stale : Bool) : Bool × Resp :=
  addHeaderPrintf r (bytes "WWW-Authenticate")
    (bytes "Digest realm=\"" ++ realm ++ bytes "\", nonce=\"" ++ nonce ++ bytes "\"" ++
      if stale then bytes ", stale=true" else [])

/-! ## What a call can do -/

section

variable (r : Resp) (name value : Str)

theorem addPmsgString_eq (msg : Resp) (s : Str) : addPmsgString msg s = (none, msg) ∨
    (msg.msgLen + (s.length + 1) ≤ msg.maxLen ∧
      addPmsgString msg s = (some s, { msg with msgLen := msg.msgLen + (s.length + 1) })) := by
  unfold addPmsgString
  split
  · exact .inl rfl
  · exact .inr ⟨by omega, rfl⟩

def putHeader (first second : Str) (f : Str × Str) : Bool × Resp :=
  if r.fields.length = maxFields ∨ r.maxLen < r.msgLen + (first.length + 1) then (false, r)
  else if r.maxLen < r.msgLen + (first.length + 1) + (second.length + 1) then
    (false, { r with msgLen := r.msgLen + (first.length + 1) })
  else (true, { r with msgLen := r.msgLen + (first.length + 1) + (second.length + 1), fields := r.fields ++ [f] })

theorem addHeader_eq_putHeader : addHeader r name value = putHeader r name value (name, value) := by
  unfold addHeader putHeader addPmsgString
  by_cases hcount : r.fields.length = maxFields
  · rw [if_pos hcount, if_pos (.inl hcount)]
  · by_cases hfirst : r.maxLen < r.msgLen + (name.length + 1)
    · simp [hcount, hfirst]
    · by_cases hboth : r.maxLen < r.msgLen + (name.length + 1) + (value.length + 1)
      · simp [hcount, hfirst, hboth]
      · simp [hcount, hfirst, hboth]

theorem addHeaderPrintf_eq_putHeader : addHeaderPrintf r name value = putHeader r value name (name, value) := by
  unfold addHeaderPrintf putHeader addPmsgString
  by_cases hcount : r.fields.length = maxFields
  · rw [if_pos hcount, if_pos (.inl hcount)]
  · have hsame : r.maxLen ≤ r.msgLen + value.length ↔ r.maxLen < r.msgLen + (value.length + 1) := by omega
    by_cases hfirst : r.maxLen < r.msgLen + (value.length + 1)
    · simp [hcount, hsame, hfirst]
    · by_cases hboth : r.maxLen < r.msgLen + (value.length + 1) + (name.length + 1)
      · simp [hcount, hsame, hfirst, hboth]
      · simp [hcount, hsame, hfirst, hboth]

theorem replaceHeader_cases :
    ((∀ f ∈ r.fields, caseEq f.1 name = false) ∧ replaceHeader r name value = addHeader r name value) ∨
    ∃ A f B, r.fields = A ++ f :: B ∧ (∀ g ∈ A, caseEq g.1 name = false) ∧ caseEq f.1 name ∧
      (replaceHeader r name value = (false, r) ∨
        ∃ n, replaceHeader r name value = (true, { r with msgLen := n, fields := A ++ (f.1, value) :: B }) ∧
          (n = r.msgLen ∧ value.length ≤ f.2.length ∨ n = r.msgLen + (value.length + 1) ∧ n ≤ r.maxLen)) := by
  unfold replaceHeader
  cases hi : r.fields.findIdx? fun f => caseEq f.1 name with
  | none =>
    refine .inl ⟨fun f hf => ?_, rfl⟩
    exact List.findIdx?_eq_none_iff.mp hi f hf
  | some i =>
    obtain ⟨hlt, hname, hbefore⟩ := List.findIdx?_eq_some_iff_getElem.mp hi
    have hsplit : r.fields = r.fields.take i ++ r.fields[i] :: r.fields.drop (i + 1) := by simp
    have hset : ∀ y, r.fields.set i y = r.fields.take i ++ y :: r.fields.drop (i + 1) :=
      fun y => List.set_eq_take_append_cons_drop.trans (if_pos hlt)
    have hget : r.fields.getD i ([], []) = r.fields[i] := by
      rw [List.getD_eq_getElem?_getD, List.getElem?_eq_getElem hlt, Option.getD_some]
    refine .inr ⟨r.fields.take i, r.fields[i], r.fields.drop (i + 1), hsplit, ?_, hname, ?_⟩
    · intro g hg
      obtain ⟨j, hj, rfl⟩ := List.mem_iff_getElem.mp hg
      rw [List.length_take] at hj
      rw [List.getElem_take]
      exact Bool.eq_false_iff.mpr (hbefore j (by omega))
    · dsimp only
      rw [hget]
      split
      · rcases addPmsgString_eq r value with hno | ⟨hroom, hyes⟩
        · rw [hno]
          exact .inl rfl
        · rw [hyes]
          dsimp only
          rw [hset]
          exact .inr ⟨_, rfl, .inr ⟨rfl, hroom⟩⟩
      · rename_i hlong
        rw [hset]
        exact .inr ⟨r.msgLen, rfl, .inl ⟨rfl, by omega⟩⟩

end

end NuWicam.Rtsp
