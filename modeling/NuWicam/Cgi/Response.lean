import NuWicam.Cgi.Listing
import NuWicam.Lib.Json

/-!
# The response of the configuration CGI (`param.c`)

`cgi_response` prints a group's parameters as a JSON object, with the values as they stand in the file. `cgiResponse_list_iff`
says for which values the response is the JSON object of them.
-/

namespace NuWicam.Cgi

open Lib Json Option

/-! ## The source -/

/-- The configuration files, and the text in `g_szOuputData`. -/
structure CgiState where
  files : Files
  out : Str

/-- `WriteParamStr` -/
def writeParam (g : Group) (name value : Str) (st : CgiState) : Option (CgiState × Int) :=
  (writeFile g name value st.files).map fun (files, ret) => ({ st with files }, ret)

/-- `configs_list_all` -/
def listParams (g : Group) (st : CgiState) : Option (CgiState × Int) :=
  (configsListAll (st.files g) g st.out).map fun (out, ret) => ({ st with out }, ret)

def contentType : Str := bytes "Content-type: application/json\r\n\r\n"

def cgiResponse (r : Processed CgiState) : Str :=
  contentType ++ (bytes "\x7b" ++ ((if r.listed then r.st.out
    else bytes "\"value\": \"" ++ (decimal r.retCode ++ bytes "\"")) ++ bytes "\x7d\r\n\r\n"))

/-! ## Requests to list -/

/-- The group that is listed for a query, if any. -/
def listedGroup (query : Str) : Option Group :=
  (strstr (bytes "action=") query).bind fun q =>
    if (strstr (bytes "list") (q.drop 7)).isSome then
      (advance 5 (q.drop 7)).bind fun p => (strstr (bytes "group=") p).bind fun p => configsSearchGroupname (p.drop 6)
    else none

theorem configsProcess_listed_group {S : Type} (write : Group → Str → Str → S → Option (S × Int))
    (listAll : Group → S → Option (S × Int)) {query : Str} {g : Group} (h : listedGroup query = some g) (st : S) :
    configsProcess write listAll query st = (listAll g st).map fun r => ⟨r.1, -1, r.2 ≠ -1⟩ := by
  rw [listedGroup, bind_eq_some_iff] at h
  obtain ⟨q, hq, h⟩ := h
  split at h
  · rename_i hlist
    simp only [bind_eq_some_iff] at h
    obtain ⟨p, hadv, p', hgroup, hg⟩ := h
    simp only [configsProcess, hq, hlist, hadv, configsList, hgroup, hg, if_true, bind_eq_bind, bind_some]
    cases listAll g st <;> rfl
  · cases h

def readValue (file : Option Str) (name : Str) : Str :=
  ((readParamStr file name valueBufSize).map valueRead).getD []

/-- The parameters with the values that `ReadParamStr` reads. -/
def Group.members (g : Group) (files : Files) : List (Str × Str) := g.params.map fun name => (name, readValue (files g) name)

def ListsJson (files : Files) (query : Str) (g : Group) : Prop :=
  ∃ r body, configsProcess writeParam listParams query ⟨files, []⟩ = some r ∧ cgiResponse r = contentType ++ body ∧
    IsObject body (g.members files)

theorem readValue_eq {file : Option Str} {name : Str} (h : MemberFits file name) :
    readValue file name = fileValue file name := by
  rcases readParamStr_fits file name with ⟨r, hr, hval, -⟩ | ⟨-, hnot⟩
  · rw [readValue, hr, map_some, getD_some, hval]
  · refine absurd ⟨h.1, ?_⟩ hnot
    have hlen := h.2
    unfold memberBufSize at hlen
    unfold valueBufSize
    omega

theorem membersText_eq (file : Option Str) : ∀ names : List Str,
    membersText file names = rawMembers (names.map fun name => (name, fileValue file name))
  | [] => rfl
  | [name] => by simp [membersText, rawMembers, memberIn, memberText, rawMember, bytes]
  | name :: name' :: names => by
    have ih := membersText_eq file (name' :: names)
    rw [membersText, if_neg (by simp), ih]
    simp [rawMembers, memberIn, memberText, rawMember, bytes]

theorem listsJson_iff_body {files : Files} {query : Str} {g : Group} (hq : listedGroup query = some g)
    (hfit : ∀ name ∈ g.params, MemberFits (files g) name) : ListsJson files query g ↔
      IsObject (123 :: (rawMembers (g.params.map fun name => (name, fileValue (files g) name)) ++
        125 :: bytes "\r\n\r\n")) (g.params.map fun name => (name, fileValue (files g) name)) := by
  have hmembers : g.members files = g.params.map fun name => (name, fileValue (files g) name) :=
    List.map_congr_left fun name hname => congrArg _ (readValue_eq (hfit name hname))
  have hbody : cgiResponse ⟨⟨files, membersText (files g) g.params⟩, -1, true⟩ = contentType ++
      (123 :: (rawMembers (g.params.map fun name => (name, fileValue (files g) name)) ++ 125 :: bytes "\r\n\r\n")) := by
    rw [← membersText_eq]
    rfl
  unfold ListsJson
  rw [configsProcess_listed_group writeParam listParams hq, listParams, configsListAll_eq hfit, hmembers]
  constructor
  · rintro ⟨r, body, hr, hresponse, hobject⟩
    cases hr
    rwa [List.append_cancel_left (hresponse.symm.trans hbody)] at hobject
  · exact fun hobject => ⟨_, _, rfl, hbody, hobject⟩

theorem closing_tail : Closed (125 :: bytes "\r\n\r\n") ∧ skipBlanks (bytes "\r\n\r\n") = [] ∧ Utf8 (bytes "\r\n\r\n") := by
  refine ⟨?_, by decide, by decide⟩
  exact closed_of_unescaped (p := [125]) (c := 13) (by decide) (.inr (by decide)) (bytes "\n\r\n")

/-- **The response is the JSON object of the values** exactly if every value is plain UTF-8. -/
theorem cgiResponse_list_iff (files : Files) (query : Str) (g : Group) (hq : listedGroup query = some g)
    (hfit : ∀ name ∈ g.params, MemberFits (files g) name) : ListsJson files query g ↔
      ∀ name ∈ g.params, Unescaped (fileValue (files g) name) ∧ Utf8 (fileValue (files g) name) := by
  have hkeys : ∀ name ∈ g.params, Unescaped name ∧ Utf8 name := by cases g <;> decide +kernel
  have hne : g.params ≠ [] := by cases g <;> decide
  rw [listsJson_iff_body hq hfit, isObject_raw_iff closing_tail.1 closing_tail.2.1 closing_tail.2.2]
  · rw [List.forall_mem_map]
  · exact fun h => hne (List.map_eq_nil_iff.mp h)
  · rw [List.forall_mem_map]
    exact hkeys

theorem cgiResponse_list_plain : ListsJson (fun _ => some (bytes "SSID \"Caf" ++ [0xC3, 0xA9] ++ bytes "\"\nAP_CHANNEL 6\n"))
      (bytes "action=list&group=wifi") .wifi :=
  (cgiResponse_list_iff _ _ _ (by decide) (by decide +kernel)).mpr (by decide +kernel)

theorem cgiResponse_list_backslash :
    ¬ ListsJson (fun _ => some (bytes "AUTH_KEY pass\\word\n")) (bytes "action=list&group=wifi") .wifi := by
  rw [listsJson_iff_body (by decide) (by decide +kernel)]
  decide +kernel

end NuWicam.Cgi
