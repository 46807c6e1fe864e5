import NuWicam.Cgi.Query

/-!
# The list of a group's parameters (`param.c`)

`configs_list_all` fills four buffers one after the other, the line, the value, the member and the output, without a size. As
in `Cgi.Config` a function is `none` where the source writes past the end of one (`configsListAll_safe_iff`).
-/

namespace NuWicam.Cgi

open Lib List Option

/-! ## The source -/

/-- `g_astrWifiParam` and `g_astrStreamParam` -/
def Group.params : Group → List Str
  | .wifi => [bytes "BOOTPROTO", bytes "IPADDR", bytes "GATEWAY", bytes "SSID", bytes "AUTH_MODE", bytes "ENCRYPT_TYPE",
      bytes "AUTH_KEY", bytes "WPS_TRIG_KEY", bytes "AP_SSID", bytes "AP_CHANNEL", bytes "AP_AUTH_KEY",
      bytes "AP_CHANNEL"]
  | .stream => [bytes "VINWIDTH", bytes "VINHEIGHT", bytes "JPEGENCWIDTH", bytes "JPEGENCHEIGHT", bytes "BITRATE"]

/-- `sizeof(strParamValue)` -/
def valueBufSize : Nat := 128

/-- `sizeof(pBuf)` -/
def memberBufSize : Nat := 128

/-- `g_szOuputData` is declared as an array of pointers. -/
def outputBufSize : Nat := 4096 * 4

def putStr (size : Nat) (s : Str) : Option Str := if s.length < size then some s else none

/-- What `ReadParamStr` leaves in `strParamValue`: nothing after an error. -/
def valueRead : Except Int Str → Str
  | .ok value => value
  | .error _ => []

/-- `"name": "value"`; no name has a `.`, for which the source has a second format. -/
def memberText (name value : Str) : Str :=
  bytes "\"" ++ (name ++ (bytes "\": \"" ++ (value ++ bytes "\"")))

def listLoop (file : Option Str) : List Str → Str → Option Str
  | [], out => some out
  | name :: names, out => do
    let value ← readParamStr file name valueBufSize
    let buf ← putStr memberBufSize (memberText name (valueRead value))
    let out ← putStr outputBufSize (out ++ buf)
    let out ← if names = [] then some out else putStr outputBufSize (out ++ bytes ", ")
    listLoop file names out

/-- `configs_list_all`: the output and the return value. -/
def configsListAll (file : Option Str) (g : Group) (out : Str) : Option (Str × Int) :=
  (listLoop file g.params out).map fun out => (out, if out = [] then -1 else 0)

/-! ## The value of a parameter -/

/-- What is scanned from the first line that starts with the name. -/
def valueIn (name content : Str) : Str :=
  (((fileLines content).map cstr).find? (startsWith name)).elim [] (scanValue name)

def fileValue (file : Option Str) (name : Str) : Str := file.elim [] (valueIn name)

def ReadFits (file : Option Str) (name : Str) : Prop :=
  ∀ content, file = some content → LinesFit (linesUpTo name (fileLines content))

variable {name : Str} {file : Option Str}

theorem readFits_some {content : Str} : ReadFits (some content) name ↔ LinesFit (linesUpTo name (fileLines content)) :=
  ⟨fun h => h content rfl, fun h _ heq => some.inj heq ▸ h⟩

instance : (file : Option Str) → (name : Str) → Decidable (ReadFits file name)
  | none, _ => isTrue nofun
  | some content, name => decidable_of_iff (LinesFit (linesUpTo name (fileLines content))) readFits_some.symm

theorem storeValue_eq (name : Str) {size : Nat} (hsize : 0 < size) (buf : Str) :
    storeValue name size buf = if (scanValue name buf).length < size then some (scanValue name buf) else none := by
  unfold storeValue
  by_cases h : (scanValue name buf).length < size
  · rw [if_neg fun hc => by omega, if_pos h]
  · have hne : scanValue name buf ≠ [] := by
      intro hnil
      rw [hnil] at h
      exact h hsize
    rw [if_pos ⟨hne, by omega⟩, if_neg h]

theorem readParamStr_fits (file : Option Str) (name : Str) :
    (∃ r, readParamStr file name valueBufSize = some r ∧ valueRead r = fileValue file name ∧ ReadFits file name ∧
      (fileValue file name).length < valueBufSize) ∨ readParamStr file name valueBufSize = none ∧
      ¬ (ReadFits file name ∧ (fileValue file name).length < valueBufSize) := by
  have hnil : ([] : Str).length < valueBufSize := by decide
  cases file with
  | none => exact .inl ⟨_, rfl, rfl, nofun, hnil⟩
  | some content =>
    rw [readParamStr, if_neg (by decide), readFits_some]
    dsimp [fileValue]
    rw [readLoop_lines name _ _ (by omega)]
    by_cases hfit : LinesFit (linesUpTo name (fileLines content))
    · rw [if_pos hfit, valueIn]
      cases ((fileLines content).map cstr).find? (startsWith name) with
      | none => exact .inl ⟨_, rfl, rfl, hfit, hnil⟩
      | some buf =>
        simp only [elim_some, storeValue_eq name (show 0 < valueBufSize by decide)]
        by_cases hlen : (scanValue name buf).length < valueBufSize
        · rw [if_pos hlen]
          exact .inl ⟨_, rfl, rfl, hfit, hlen⟩
        · rw [if_neg hlen]
          exact .inr ⟨rfl, fun h => hlen h.2⟩
    · rw [if_neg hfit]
      exact .inr ⟨rfl, fun h => hfit h.1⟩

/-! ## The members -/

def MemberFits (file : Option Str) (name : Str) : Prop :=
  ReadFits file name ∧ name.length + (fileValue file name).length + 6 < memberBufSize

instance (file : Option Str) (name : Str) : Decidable (MemberFits file name) := inferInstanceAs (Decidable (_ ∧ _))

def memberIn (file : Option Str) (name : Str) : Str := memberText name (fileValue file name)

/-- The members with `, ` between them. -/
def membersText (file : Option Str) : List Str → Str
  | [] => []
  | name :: names => memberIn file name ++ ((if names = [] then [] else bytes ", ") ++ membersText file names)

theorem length_memberText (name value : Str) : (memberText name value).length = name.length + value.length + 6 := by
  have hopen : (bytes "\"").length = 1 := by decide
  have hmid : (bytes "\": \"").length = 4 := by decide
  simp only [memberText, length_append, hopen, hmid]
  omega

theorem room_left (h : MemberFits file name) {names : List Str} {out : Str}
    (hout : out.length + (name :: names).length * 130 < outputBufSize) :
    (out ++ (memberIn file name ++ if names = [] then [] else bytes ", ")).length + names.length * 130 <
      outputBufSize := by
  have hmember : (memberIn file name).length < 128 := by
    rw [memberIn, length_memberText]
    exact h.2
  have hsep : (if names = [] then ([] : Str) else bytes ", ").length ≤ 2 := by
    split
    · exact Nat.zero_le 2
    · exact Nat.le_of_eq (by decide)
  rw [length_cons, Nat.succ_mul] at hout
  simp only [length_append]
  omega

theorem listLoop_cons (h : MemberFits file name) (names : List Str) {out : Str}
    (hout : out.length + 130 < outputBufSize) : listLoop file (name :: names) out =
      listLoop file names (out ++ (memberIn file name ++ if names = [] then [] else bytes ", ")) := by
  have hlen : (memberIn file name).length < memberBufSize := by
    rw [memberIn, length_memberText]
    exact h.2
  have hvalue : (fileValue file name).length < valueBufSize := by
    have h' := h.2
    unfold memberBufSize at h'
    unfold valueBufSize
    omega
  rcases readParamStr_fits file name with ⟨r, hr, hval, -, -⟩ | ⟨-, hnot⟩
  · have hmember : putStr memberBufSize (memberText name (valueRead r)) = some (memberIn file name) := by
      rw [hval]
      exact if_pos hlen
    have hsize : (out ++ memberIn file name).length + 2 < outputBufSize := by
      unfold memberBufSize at hlen
      rw [length_append]
      omega
    have happend : putStr outputBufSize (out ++ memberIn file name) = some (out ++ memberIn file name) :=
      if_pos (by omega)
    simp only [listLoop, hr, hmember, happend, bind_eq_bind, bind_some]
    by_cases hnames : names = []
    · rw [if_pos hnames, if_pos hnames, append_nil]
    · have hsep : putStr outputBufSize (out ++ memberIn file name ++ bytes ", ") =
          some (out ++ memberIn file name ++ bytes ", ") := by
        refine if_pos ?_
        rw [length_append]
        exact hsize
      rw [if_neg hnames, if_neg hnames, hsep, ← append_assoc]
      rfl
  · exact absurd ⟨h.1, hvalue⟩ hnot

theorem listLoop_overflow (h : ¬ MemberFits file name) (names : List Str) (out : Str) :
    listLoop file (name :: names) out = none := by
  rcases readParamStr_fits file name with ⟨r, hr, hval, hread, -⟩ | ⟨hr, -⟩
  · have hmember : putStr memberBufSize (memberText name (valueRead r)) = none := by
      rw [hval]
      refine if_neg fun hlen => h ⟨hread, ?_⟩
      rwa [length_memberText] at hlen
    simp [listLoop, hr, hmember]
  · simp [listLoop, hr]

theorem listLoop_eq : ∀ {names : List Str}, (∀ name ∈ names, MemberFits file name) →
    ∀ {out : Str}, out.length + names.length * 130 < outputBufSize →
    listLoop file names out = some (out ++ membersText file names)
  | [], _, out, _ => by rw [listLoop, membersText, List.append_nil]
  | name :: names, h, out, hout => by
    rw [List.forall_mem_cons] at h
    have hlen := room_left h.1 hout
    rw [length_cons, Nat.succ_mul] at hout
    rw [listLoop_cons h.1 names (by omega), listLoop_eq h.2 hlen, membersText]
    simp

theorem listLoop_none : ∀ {names : List Str} {out : Str},
    out.length + names.length * 130 < outputBufSize → ¬ (∀ name ∈ names, MemberFits file name) → listLoop file names out = none
  | [], _, _, h => absurd nofun h
  | name :: names, out, hout, h => by
    by_cases hname : MemberFits file name
    · have hlen := room_left hname hout
      rw [length_cons, Nat.succ_mul] at hout
      rw [listLoop_cons hname names (by omega)]
      exact listLoop_none hlen fun hnames => h (forall_mem_cons.mpr ⟨hname, hnames⟩)
    · exact listLoop_overflow hname names out

theorem params_room (g : Group) : ([] : Str).length + g.params.length * 130 < outputBufSize := by
  cases g <;> decide

theorem configsListAll_eq {g : Group} (h : ∀ name ∈ g.params, MemberFits file name) :
    configsListAll file g [] = some (membersText file g.params, 0) := by
  have hne : membersText file g.params ≠ [] := by
    cases g <;> simp [membersText, Group.params, memberIn, memberText, bytes]
  rw [configsListAll, listLoop_eq h (params_room g), nil_append, map_some, if_neg hne]

/-- **`configs_list_all` stays inside its buffers** exactly if lines and members fit. -/
theorem configsListAll_safe_iff (file : Option Str) (g : Group) :
    (configsListAll file g []).isSome = true ↔ ∀ content, file = some content → ∀ name ∈ g.params,
      LinesFit (linesUpTo name (fileLines content)) ∧ name.length + (valueIn name content).length + 6 < 128 := by
  have hfits : (∀ name ∈ g.params, MemberFits file name) ↔ ∀ content, file = some content → ∀ name ∈ g.params,
      LinesFit (linesUpTo name (fileLines content)) ∧ name.length + (valueIn name content).length + 6 < 128 := by
    cases file with
    | none =>
      refine ⟨fun _ => nofun, fun _ name hname => ⟨nofun, ?_⟩⟩
      have hshort : ∀ name ∈ g.params, name.length + 6 < memberBufSize := by cases g <;> decide
      exact hshort name hname
    | some content =>
      simp only [some.injEq, forall_eq', MemberFits, readFits_some]
      rfl
  rw [← hfits]
  by_cases h : ∀ name ∈ g.params, MemberFits file name
  · rw [configsListAll_eq h]
    exact iff_of_true rfl h
  · rw [configsListAll, listLoop_none (params_room g) h]
    exact iff_of_false Bool.false_ne_true h

theorem configsListAll_member_overflow :
    ¬ (configsListAll (some (bytes "BITRATE " ++ List.replicate 115 57)) .stream []).isSome = true := by decide +kernel

end NuWicam.Cgi
