import NuWicam.Rtsp.Pmsg
import NuWicam.Rtsp.Md5

/-!
# Digest authentication (`http-auth.c`)

`check_digest_response` returns `-1` for a wrong response, `0` for a right response over a nonce that is not ours or older than
15 seconds, `1` for a right response over a fresh nonce.
-/

namespace NuWicam.Rtsp

open Lib

def Pmsg.method (m : Pmsg) : Str :=
  match m.sl with
  | .req method _ => method
  | .stat _ _ => []

def Pmsg.uri (m : Pmsg) : Str :=
  match m.sl with
  | .req _ uri => uri
  | .stat _ _ => []

/-- `struct digest_auth_info`, each member as a C string. -/
structure DigestAuthInfo where
  realm : Str
  uri : Str
  nonce : Str
  opaqueData : Str
  username : Str
  response : Str
deriving DecidableEq, Repr

/-- `memset(&auth, 0, sizeof(auth))` -/
def DigestAuthInfo.empty : DigestAuthInfo := ⟨[], [], [], [], [], []⟩

/-! ## The `Authorization` header -/

/-- The value of a directive, from the byte after the `=` on, and the rest of the header. -/
def directiveValue (v : Str) : Option (Str × Str) :=
  match v with
  | 34 :: v =>
    match strchr 34 v with
    | none => none
    | some rest => some (v.take (v.length - rest.length), rest)
  | v => some (v.span fun c => c != 44 && c != 32)

/-- The text that `v` points at. -/
def valueText (v : Str) : Str := if v.head? = some 34 then v.tail else v

def storeValue (size : Nat) (value : Str) (set : Str → DigestAuthInfo) : Option DigestAuthInfo :=
  if size ≤ value.length then none else some (set value)

/-- `n` points at the name, `v` at the value. -/
def setDirective (n v value : Str) (auth : DigestAuthInfo) : Option DigestAuthInfo :=
  if hasPfxCase (bytes "realm=") n then storeValue 128 value fun s => { auth with realm := s }
  else if hasPfxCase (bytes "uri=") n then storeValue 512 value fun s => { auth with uri := s }
  else if hasPfxCase (bytes "nonce=") n then storeValue 128 value fun s => { auth with nonce := s }
  else if hasPfxCase (bytes "opaque=") n then storeValue 128 value fun s => { auth with opaqueData := s }
  else if hasPfxCase (bytes "username=") n then storeValue 128 value fun s => { auth with username := s }
  else if hasPfxCase (bytes "response=") n then storeValue 33 value fun s => { auth with response := s }
  else if hasPfxCase (bytes "algorithm=") n then (if hasPfxCase (bytes "md5") v then some auth else none)
  else some auth

/-- Each directive takes at least one byte, so the number of bytes is enough fuel. -/
def parseDirectives : Nat → Str → DigestAuthInfo → Option DigestAuthInfo
  | _, [], auth => some auth
  | 0, _ :: _, _ => none
  | fuel + 1, n, auth =>
    match strchr 61 n with
    | none => none
    | some eq =>
      if eq.tail = [] then none
      else match directiveValue eq.tail with
        | none => none
        | some (value, rest) =>
          match setDirective n (valueText eq.tail) value auth with
          | none => none
          | some auth => parseDirectives fuel (rest.dropWhile fun c => c == 34 || c == 44 || c == 32) auth

/-- On a cleared `auth`; `none` where it returns `-1`. -/
def parseAuthHeader (header : Str) : Option DigestAuthInfo :=
  if hasPfxCase (bytes "digest ") header then parseDirectives header.length (header.drop 7) .empty else none

/-! ## Nonces and responses -/

section Hashing

variable (md5 : Md5)

def md5Hash (v : List Str) : Str := hexBytes (md5.hash ([58].intercalate v))

def put32 (n : UInt32) : Str := [(n >>> 24).toUInt8, (n >>> 16).toUInt8, (n >>> 8).toUInt8, n.toUInt8]

/-- `create_nonce` at the time `now`, with twelve random bytes. -/
def createNonce (secret : Str) (now : UInt32) (random : Str) : Str :=
  let token := hexBytes (put32 now ++ random)
  token ++ md5Hash md5 [token, secret]

def createResponse (auth : DigestAuthInfo) (method password : Str) : Str :=
  md5Hash md5 [md5Hash md5 [auth.username, auth.realm, password], auth.nonce, md5Hash md5 [method, auth.uri]]

/-- The loop of `get_hex_u32`. -/
def hexLoop : UInt32 → Str → UInt32
  | val, [] => val
  | val, c :: cs =>
    -- the source subtracts `0` here, not `'0'`
    if 48 ≤ c ∧ c ≤ 57 then hexLoop ((val <<< 4) ||| (c.toUInt32 - 0)) cs
    else if 65 ≤ c ∧ c ≤ 70 then hexLoop ((val <<< 4) ||| (c.toUInt32 - 65 + 10)) cs
    else if 97 ≤ c ∧ c ≤ 102 then hexLoop ((val <<< 4) ||| (c.toUInt32 - 97 + 10)) cs
    else val

def getHexU32 (hex : Str) : UInt32 := hexLoop 0 (hex.take 8)

/-- Whether the nonce is ours and fresh. `secret` is `digest_secret`, if `secret_created`. -/
def checkNonce (secret : Option Str) (now : UInt32) (nonce : Str) : Int :=
  match secret with
  | none => 0
  | some secret =>
    if nonce.length ≠ 64 then 0
    else if nonce.drop 32 ≠ md5Hash md5 [nonce.take 32, secret] then 0
    else if now > getHexU32 (nonce.take 32) + 15 then 0
    else 1

def withUri (auth : DigestAuthInfo) (uri : Str) : DigestAuthInfo :=
  if auth.uri = [] then { auth with uri := uri } else auth

/-- `expected` in `check_digest_response` -/
def expectedResponse (auth : DigestAuthInfo) (m : Pmsg) (username password : Str) : Str :=
  createResponse md5 (withUri auth m.uri) m.method (if 0 < username.length ∧ 0 < password.length then password else [])

def checkDigestResponse (secret : Option Str) (now : UInt32) (m : Pmsg) (realm username password : Str) : Int :=
  match getHeader m (bytes "authorization") with
  | none => -1
  | some hdr =>
    match parseAuthHeader hdr with
    | none => -1
    | some auth =>
      if auth.realm ≠ realm then -1
      else if 0 < username.length ∧ caseEq auth.username username = false then -1
      else if auth.uri = [] ∧ 512 ≤ m.uri.length then -1
      else if caseEq auth.response (expectedResponse md5 auth m username password) = false then -1
      else checkNonce md5 secret now auth.nonce

end Hashing

end NuWicam.Rtsp
