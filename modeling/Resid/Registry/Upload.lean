import Mathlib.Data.Finmap
import Resid.Http.Request
import Resid.Registry.Index

/-!
# Uploads

A registry's files live in a store: a directory, or anything else that answers what was last
put.  An upload is a signed archive whose manifest names the path it is put at.

## Algorithm

Shape, signature and manifest are checked first, then what is published under that name: the
same archive is answered as published, another one is refused.  A new one is four writes and
the index's signature: archive, hash, signature, index.
-/

namespace Registry

open Runtime Http

class RegStore (T : Type) where
  storeGet : T → Str → List Byte
  storeHas : T → Str → Bool
  storePut : T → Str → List Byte → T

open RegStore

/-- A store answers what was last put. -/
class LawfulRegStore (T : Type) [RegStore T] : Prop where
  get_put_self (s : T) (p : Str) (b : List Byte) : storeGet (storePut s p b) p = b
  get_put_other (s : T) {p q : Str} (b : List Byte) (h : q ≠ p) :
    storeGet (storePut s p b) q = storeGet s q
  has_put_self (s : T) (p : Str) (b : List Byte) : storeHas (storePut s p b) p = true
  has_put_other (s : T) {p q : Str} (b : List Byte) (h : q ≠ p) :
    storeHas (storePut s p b) q = storeHas s q

/-- SHA-256, and Ed25519 over a text: whether a signature verifies under a public key, and the
signature under a seed. -/
structure Crypto where
  contentHash : List Byte → { b : List Byte // b.length = 32 }
  verifySig : (msg : Str) → (sig key : List Byte) → Bool
  pkgSign : (seed : List Byte) → (msg : Str) → List Byte

/-- A file of a keyring directory. -/
structure KeyFile where
  name : Str
  isDir : Bool
  text : Str

/-- The publisher keyring, if it is a directory, and the registry's index key. -/
structure UploadCfg where
  keyring : Option (List KeyFile)
  seed : List Byte

/-- What an upload reads of its request. -/
structure PutRequest where
  path : Str
  headers : Headers
  body : List Byte

/-- The store after an upload, and the reply; none when an overflow ended the process. -/
structure Uploaded (T : Type) where
  store : T
  reply : Option HttpReply

/-! ## Text as bytes -/

/-- The UTF-8 bytes of a codepoint. -/
def utf8Cp (cp : Nat) : List Nat :=
  if cp < 128 then [cp]
  else if cp < 2048 then [192 ||| (cp >>> 6), 128 ||| (cp &&& 63)]
  else if cp < 65536 then
    [224 ||| (cp >>> 12), 128 ||| ((cp >>> 6) &&& 63), 128 ||| (cp &&& 63)]
  else
    [240 ||| (cp >>> 18), 128 ||| ((cp >>> 12) &&& 63), 128 ||| ((cp >>> 6) &&& 63),
      128 ||| (cp &&& 63)]

def bytesOf (msg : Str) : List Byte := msg.flatMap fun c => (utf8Cp c.toNat).map (Fin.ofNat 256)

/-! ## Paths -/

/-- An empty, `.` or `..` segment, other than the empty one before the leading slash. -/
def segUnsafe : List Str → (first : Bool) → Bool
  | [], _ => false
  | s :: segs, first =>
    if !(first && s == []) && (s == [] || s == ".".toList || s == "..".toList) then true
    else segUnsafe segs false

def hasNul (s : Str) : Bool := s.any fun c => c.toNat == 0

def pathIsUnsafe (path : Str) : Bool := hasNul path || segUnsafe (strSplit path ['/']) true

def pkgPath (base : Str) : Str := "pkg/".toList ++ base ++ ".resid-pkg".toList

def shaPath (base : Str) : Str := "pkg/".toList ++ base ++ ".resid-sha256".toList

def sigPath (base : Str) : Str := "pkg/".toList ++ base ++ ".resid-sig".toList

def idxPath : Str := "pkg/index.resid-idx".toList

def idxSigPath : Str := "pkg/index.resid-sig".toList

/-! ## The index -/

section Store

variable {T : Type} [RegStore T] (c : Crypto)

/-- The next index and a signature over its text; nothing when its serial or its expiry
overflows. -/
def indexPut (st : T) (entries : List IdxEntry) (seed : List Byte) (now : Int) : Option T :=
  let om := idxMeta (bytesToAscii (storeGet st idxPath))
  match CheckedInt.add 64 om.serial 1, CheckedInt.add 64 now idxTtl with
  | some serial, some expires =>
    let newText := indexText entries ⟨serial, expires⟩
    let s1 := storePut st idxPath (bytesOf newText)
    let sig := c.pkgSign seed (hexEncode (c.contentHash (bytesOf newText)).val)
    some (storePut s1 idxSigPath (bytesOf (hexEncode sig)))
  | _, _ => none

/-- Replace this package's index entry and re-sign the whole index. -/
def indexMaintain (st : T) (name version hashHex : Str) (seed : List Byte) (now : Int) :
    Option T :=
  let existing := parseIndexText (bytesToAscii (storeGet st idxPath))
  indexPut c st (idxRemove existing name version ++ [⟨name, version, hashHex⟩]) seed now

/-! ## The upload -/

def uploadText (code : Int) (msg : Str) : HttpReply :=
  let reply := httpReplyText code "text/plain; charset=utf-8".toList (msg ++ "\n".toList)
  { reply with headers := reply.headers ++ ["Server: resid-pkg".toList] }

def uploaded (st : T) (code : Int) (msg : Str) : Uploaded T := ⟨st, some (uploadText code msg)⟩

def uploadSigned (hashHex : Str) (sig : List Byte) (keyring : List KeyFile) : Bool :=
  keyring.any fun f => strEndsWith f.name ".pub".toList && !f.isDir &&
    c.verifySig hashHex sig (hexDecode (strTrim f.text))

/-- The file name of a request's path, without the suffix; nothing for another shape. -/
def uploadBase (path : Str) : Option Str :=
  let base0 := if strStartsWith path "/pkg/".toList then strSlice path 5 (strLen path) else []
  if strEndsWith base0 ".resid-pkg".toList && !base0.contains '/' && !pathIsUnsafe path then
    some (strSlice base0 0 (strLen base0 - 10))
  else none

/-- An archive that was checked, against what is published under its name. -/
def uploadNew (st : T) (u : UploadCfg) (body sig : List Byte) (name version base : Str)
    (now : Int) : Uploaded T :=
  let hashHex := hexEncode (c.contentHash body).val
  let have' := strTrim (bytesToAscii (storeGet st (shaPath base)))
  if have' = hashHex then
    uploaded st 200 ("already published: ".toList ++ name ++ " ".toList ++ version ++
      " sha256 ".toList ++ hashHex)
  else if have' ≠ [] then
    uploaded st 409 (name ++ " ".toList ++ version ++ " is already published with sha256 ".toList ++
      have' ++ "; publish a new version".toList)
  else if storeHas st (pkgPath base) then
    uploaded st 409 (name ++ " ".toList ++ version ++
      " is already published; publish a new version".toList)
  else
    let s1 := storePut st (pkgPath base) body
    let s2 := storePut s1 (shaPath base) (bytesOf (hashHex ++ "\n".toList))
    let s3 := storePut s2 (sigPath base) (bytesOf (hexEncode sig))
    match indexMaintain c s3 name version hashHex u.seed now with
    | none => ⟨s3, none⟩
    | some s5 =>
      uploaded s5 201 ("published ".toList ++ name ++ " ".toList ++ version ++ " sha256 ".toList ++
        hashHex)

def registryUpload (st : T) (u : UploadCfg) (r : PutRequest) (now : Int) : Uploaded T :=
  match uploadBase r.path with
  | none => uploaded st 400 "upload to /pkg/<name>-<version>.resid-pkg".toList
  | some base =>
    let sigHex := strTrim ((r.headers.lookup "x-resid-signature".toList).getD [])
    if sigHex = [] then
      uploaded st 401 ("an upload needs X-Resid-Signature: ".toList ++
        "the hex signature over the archive's SHA-256".toList)
    else
      let hashHex := hexEncode (c.contentHash r.body).val
      let sig := hexDecode sigHex
      if !(u.keyring.elim false fun ks => uploadSigned c hashHex sig ks) then
        uploaded st 403 "no key in this registry's publisher keyring signs that archive".toList
      else
        match archiveManifest r.body with
        | none => ⟨st, none⟩
        | some toml =>
          let name := manifestField toml "name".toList
          let version := manifestField toml "version".toList
          if name = [] ∨ version = [] then
            uploaded st 400
              "the archive has no resid.toml naming [package] name and version".toList
          else if name ++ "-".toList ++ version ≠ base then
            uploaded st 400 ("the archive is ".toList ++ name ++ "-".toList ++ version ++
              ", not ".toList ++ base)
          else uploadNew c st u r.body sig name version base now

end Store

end Registry
