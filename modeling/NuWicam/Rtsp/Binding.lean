import NuWicam.Rtsp.Nonce
import Mathlib.Data.List.Nodup
import Mathlib.Data.Set.Function

/-!
# What a digest response is bound to (`check_digest_response`)

The response is meant to be the digest over the user's name and password, the realm, the nonce, and the request's own method
and URI (`requestDigest`), but nothing compares the URI in the header with that of the request. `response_bound_iff` needs
the hash function to be injective only on the strings that are hashed here.
-/

namespace NuWicam.Rtsp

open Lib

/-- The digest of RFC 2617 (without `qop`) of a request. -/
def requestDigest (md5 : Md5) (username realm password nonce method uri : Str) : Str :=
  md5Hash md5 [md5Hash md5 [username, realm, password], nonce, md5Hash md5 [method, uri]]

/-- The strings hashed last in the computation of a digest, for any spelling of the user's name and either URI. -/
def hashedStrings (md5 : Md5) (auth : DigestAuthInfo) (m : Pmsg) (username password : Str) : Set Str :=
  { s | ∃ uri, (uri = m.uri ∨ uri = auth.uri) ∧ (s = [58].intercalate [m.method, uri] ∨
    ∃ user, caseEq user username = true ∧
      s = [58].intercalate [md5Hash md5 [user, auth.realm, password], auth.nonce, md5Hash md5 [m.method, uri]]) }

/-! ## Digests -/

theorem md5Hash_eq_of_caseEq {md5 : Md5} {v w : List Str} (h : caseEq (md5Hash md5 v) (md5Hash md5 w)) :
    md5.hash ([58].intercalate v) = md5.hash ([58].intercalate w) := by
  rw [caseEq_iff, md5Hash, md5Hash, map_lower_hexBytes, map_lower_hexBytes] at h
  exact hexBytes_inj h

theorem length_md5Hash (md5 : Md5) (v : List Str) : (md5Hash md5 v).length = 32 := by
  rw [md5Hash, length_hexBytes, md5.length_hash]

theorem intercalate_three (a b c : Str) : [58].intercalate [a, b, c] = a ++ 58 :: (b ++ 58 :: c) := by
  simp [List.intercalate, List.intersperse]

theorem intercalate_two (a b : Str) : [58].intercalate [a, b] = a ++ 58 :: b := by
  simp [List.intercalate, List.intersperse]

/-! ## Accepted responses -/

section Accepted

variable {md5 : Md5} {secret : Option Str} {now : UInt32} {m : Pmsg} {realm username password hdr : Str}
  {auth : DigestAuthInfo}

theorem accepted_spec (huser : username ≠ []) (hpw : password ≠ [])
    (hhdr : getHeader m (bytes "authorization") = some hdr) (hparse : parseAuthHeader hdr = some auth)
    (hcheck : checkDigestResponse md5 secret now m realm username password = 1) :
    auth.realm = realm ∧ caseEq auth.username username ∧
      caseEq auth.response (requestDigest md5 auth.username auth.realm password auth.nonce m.method
        (if auth.uri = [] then m.uri else auth.uri)) = true := by
  have hexp : expectedResponse md5 auth m username password = requestDigest md5 auth.username auth.realm password
      auth.nonce m.method (if auth.uri = [] then m.uri else auth.uri) := by
    rw [expectedResponse, if_pos ⟨List.length_pos_iff.mpr huser, List.length_pos_iff.mpr hpw⟩]
    unfold withUri createResponse requestDigest
    split <;> rfl
  rw [← hexp]
  simp only [checkDigestResponse, hhdr, hparse] at hcheck
  split at hcheck
  · cases hcheck
  split at hcheck
  · cases hcheck
  split at hcheck
  · cases hcheck
  split at hcheck
  · cases hcheck
  rename_i hrealm hname _ hresp
  refine ⟨not_not.mp hrealm, ?_, by simpa using hresp⟩
  by_contra hne
  exact hname ⟨List.length_pos_iff.mpr huser, by simpa using hne⟩

theorem uri_eq_of_digests {user : Str} (hinj : Set.InjOn md5.hash (hashedStrings md5 auth m username password))
    (hname : caseEq auth.username username) (huser : caseEq user username)
    (h : caseEq (requestDigest md5 auth.username auth.realm password auth.nonce m.method auth.uri)
      (requestDigest md5 user auth.realm password auth.nonce m.method m.uri)) : auth.uri = m.uri := by
  have houter := hinj ⟨auth.uri, Or.inr rfl, Or.inr ⟨auth.username, hname, rfl⟩⟩
    ⟨m.uri, Or.inl rfl, Or.inr ⟨user, huser, rfl⟩⟩ (md5Hash_eq_of_caseEq h)
  rw [intercalate_three, intercalate_three] at houter
  -- the hashes of names and passwords have one length, and the nonces are the same
  have htail := List.append_inj_right houter (by rw [length_md5Hash, length_md5Hash])
  have hha2 := (List.cons.inj (List.append_cancel_left (List.cons.inj htail).2)).2
  have hinner := hinj ⟨auth.uri, Or.inr rfl, Or.inl rfl⟩ ⟨m.uri, Or.inl rfl, Or.inl rfl⟩ (hexBytes_inj hha2)
  rw [intercalate_two, intercalate_two] at hinner
  exact (List.cons.inj (List.append_cancel_left hinner)).2

end Accepted

/-- **Binding**: an accepted response is the digest of this request exactly if the header names no other URI. -/
theorem response_bound_iff (md5 : Md5) {secret : Option Str} {now : UInt32} {m : Pmsg}
    {realm username password hdr : Str} {auth : DigestAuthInfo} (huser : username ≠ []) (hpw : password ≠ [])
    (hhdr : getHeader m (bytes "authorization") = some hdr) (hparse : parseAuthHeader hdr = some auth)
    (hcheck : checkDigestResponse md5 secret now m realm username password = 1)
    (hinj : Set.InjOn md5.hash (hashedStrings md5 auth m username password)) : (∃ user, caseEq user username = true ∧
      caseEq auth.response (requestDigest md5 user realm password auth.nonce m.method m.uri) = true) ↔
        auth.uri = [] ∨ auth.uri = m.uri := by
  obtain ⟨hrealm, hname, hresp⟩ := accepted_spec huser hpw hhdr hparse hcheck
  subst hrealm
  constructor
  · rintro ⟨user, hspell, hdigest⟩
    by_cases hnil : auth.uri = []
    · exact Or.inl hnil
    · rw [if_neg hnil] at hresp
      exact Or.inr (uri_eq_of_digests hinj hname hspell (caseEq_trans (caseEq_symm hresp) hdigest))
  · intro huri
    have hsame : (if auth.uri = [] then m.uri else auth.uri) = m.uri := by
      rcases huri with hnil | heq
      · exact if_pos hnil
      · rw [heq, ite_self]
    rw [hsame] at hresp
    exact ⟨auth.username, hname, hresp⟩

/-! ## A captured response -/

def spellings : Str → List Str
  | [] => [[]]
  | c :: cs => (spellings cs).flatMap fun s => [lower c :: s, (lower c - 32) :: s]

theorem eq_of_lower_eq {x l : UInt8} (h : lower x = l) : x = l ∨ x = l - 32 := by
  unfold lower at h
  split at h
  · exact Or.inr (by rw [← h]; simp)
  · exact Or.inl h

theorem mem_spellings : ∀ {u s : Str}, caseEq u s → u ∈ spellings s
  | [], [], _ => List.mem_singleton.mpr rfl
  | [], _ :: _, h => by simp [caseEq] at h
  | _ :: _, [], h => by simp [caseEq] at h
  | x :: xs, c :: cs, h => by
    rw [caseEq_iff, List.map_cons, List.map_cons, List.cons.injEq] at h
    refine List.mem_flatMap.mpr ⟨xs, mem_spellings (caseEq_iff.mpr h.2), ?_⟩
    rcases eq_of_lower_eq h.1 with rfl | rfl <;> simp

def sampleAuth (headerUri : Str) : DigestAuthInfo :=
  ⟨bytes "cam", headerUri, sampleNonce 0x6aaaaaaa, [], bytes "me",
    requestDigest .ofLibrary (bytes "me") (bytes "cam") (bytes "1234") (sampleNonce 0x6aaaaaaa) (bytes "DESCRIBE")
      headerUri⟩

theorem injOn_sample : Set.InjOn Md5.ofLibrary.hash (hashedStrings .ofLibrary (sampleAuth (bytes "rtsp://c/a"))
    (clientRequest (sampleNonce 0x6aaaaaaa) (bytes "rtsp://c/a") (bytes "rtsp://c/a")) (bytes "me") (bytes "1234")) := by
  let inner : Str := [58].intercalate [bytes "DESCRIBE", bytes "rtsp://c/a"]
  let outer : Str → Str := fun user => [58].intercalate [md5Hash .ofLibrary [user, bytes "cam", bytes "1234"],
    sampleNonce 0x6aaaaaaa, md5Hash .ofLibrary [bytes "DESCRIBE", bytes "rtsp://c/a"]]
  have hnodup : ((inner :: (spellings (bytes "me")).map outer).map Md5.ofLibrary.hash).Nodup := by decide +kernel
  have hmem : ∀ s ∈ hashedStrings .ofLibrary (sampleAuth (bytes "rtsp://c/a"))
      (clientRequest (sampleNonce 0x6aaaaaaa) (bytes "rtsp://c/a") (bytes "rtsp://c/a")) (bytes "me") (bytes "1234"),
      s ∈ inner :: (spellings (bytes "me")).map outer := by
    rintro s ⟨uri, huri, hs⟩
    have huri : uri = bytes "rtsp://c/a" := huri.elim id id
    subst huri
    rcases hs with rfl | ⟨user, hspell, rfl⟩
    · exact List.mem_cons_self
    · exact List.mem_cons_of_mem _ (List.mem_map_of_mem (mem_spellings hspell))
  intro s hs s' hs' h
  exact List.inj_on_of_nodup_map hnodup (hmem s hs) (hmem s' hs') h

theorem response_bound_sample : ∃ user, caseEq user (bytes "me") = true ∧
      caseEq (sampleAuth (bytes "rtsp://c/a")).response (requestDigest .ofLibrary user (bytes "cam") (bytes "1234")
        (sampleNonce 0x6aaaaaaa) (bytes "DESCRIBE") (bytes "rtsp://c/a")) = true := by
  have hhdr : getHeader (clientRequest (sampleNonce 0x6aaaaaaa) (bytes "rtsp://c/a") (bytes "rtsp://c/a"))
      (bytes "authorization") = some (clientHeader (bytes "me") (bytes "cam") (sampleNonce 0x6aaaaaaa)
        (bytes "rtsp://c/a") (sampleAuth (bytes "rtsp://c/a")).response) := by decide +kernel
  have hparse : parseAuthHeader (clientHeader (bytes "me") (bytes "cam") (sampleNonce 0x6aaaaaaa) (bytes "rtsp://c/a")
      (sampleAuth (bytes "rtsp://c/a")).response) = some (sampleAuth (bytes "rtsp://c/a")) := by decide +kernel
  have hcheck : checkDigestResponse .ofLibrary (some (bytes "00112233445566")) 0x6aaaaaaa
      (clientRequest (sampleNonce 0x6aaaaaaa) (bytes "rtsp://c/a") (bytes "rtsp://c/a")) (bytes "cam") (bytes "me")
      (bytes "1234") = 1 := by decide +kernel
  exact (response_bound_iff .ofLibrary (by decide) (by decide) hhdr hparse hcheck injOn_sample).mpr (Or.inr rfl)

theorem captured_response_accepted : checkDigestResponse .ofLibrary (some (bytes "00112233445566")) 0x6aaaaaaa
        (clientRequest (sampleNonce 0x6aaaaaaa) (bytes "rtsp://c/b") (bytes "rtsp://c/a")) (bytes "cam") (bytes "me")
        (bytes "1234") = 1 ∧
      ¬ ∃ user, caseEq user (bytes "me") = true ∧
        caseEq (sampleAuth (bytes "rtsp://c/a")).response (requestDigest .ofLibrary user (bytes "cam") (bytes "1234")
          (sampleNonce 0x6aaaaaaa) (bytes "DESCRIBE") (bytes "rtsp://c/b")) = true := by
  have hno : ∀ user ∈ spellings (bytes "me"),
      caseEq (sampleAuth (bytes "rtsp://c/a")).response (requestDigest .ofLibrary user (bytes "cam") (bytes "1234")
        (sampleNonce 0x6aaaaaaa) (bytes "DESCRIBE") (bytes "rtsp://c/b")) = false := by decide +kernel
  refine ⟨by decide +kernel, ?_⟩
  rintro ⟨user, hspell, hdigest⟩
  rw [hno user (mem_spellings hspell)] at hdigest
  cases hdigest

end NuWicam.Rtsp
