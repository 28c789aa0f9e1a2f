import Resid.Runtime.Text
import Resid.Lib.CheckedInt
import Resid.Lib.Sorting
import Resid.Package.Lock

/-!
# Package archives

An archive is the magic `RESIDPKG1`, a count, and for each file its path and its content
behind their lengths, all numbers little-endian.  A registry reads of it the manifest
`resid.toml`, and of that the `name` and `version` fields.
-/

namespace Registry

open Runtime

/-! ## Bytes and text -/

/-- One codepoint a byte; a zero byte is no text. -/
def bytesToAscii (b : List Byte) : Str :=
  (b.filter fun x => x.val ≠ 0).map fun x => Char.ofNat x.val

def hexNibble (c : Char) : Nat :=
  if 48 ≤ c.toNat ∧ c.toNat ≤ 57 then c.toNat - 48
  else if 97 ≤ c.toNat ∧ c.toNat ≤ 102 then c.toNat - 97 + 10
  else if 65 ≤ c.toNat ∧ c.toNat ≤ 70 then c.toNat - 65 + 10
  else 0

def hexDecode : Str → List Byte
  | c :: d :: s => Fin.ofNat 256 (hexNibble c * 16 + hexNibble d) :: hexDecode s
  | _ => []

/-! ## Numbers -/

def byteAt (b : List Byte) (pos : Nat) : Nat := (b.getD pos 0).val

def readLeU16 (b : List Byte) (pos : Nat) : Nat := byteAt b pos + byteAt b (pos + 1) * 256

def readLeU32 (b : List Byte) (pos : Nat) : Nat :=
  byteAt b pos + byteAt b (pos + 1) * 256 + byteAt b (pos + 2) * 65536 +
    byteAt b (pos + 3) * 16777216

/-- Nothing when the product overflows an Int. -/
def readLeU64 (b : List Byte) (pos : Nat) : Option Nat :=
  let lo := readLeU32 b pos
  let hi := readLeU32 b (pos + 4)
  if hi < 2147483648 then some (lo + hi * 4294967296) else none

/-! ## The manifest of an archive -/

structure ArchiveHdr where
  ok : Bool
  count : Nat

def archiveMagic : List Byte := [82, 69, 83, 73, 68, 80, 75, 71, 49]

def readArchiveHeader (a : List Byte) : ArchiveHdr :=
  if a.length < 13 then ⟨false, 0⟩
  else if !archiveMagic.isPrefixOf a then ⟨false, 0⟩
  else ⟨true, readLeU32 a 9⟩

/-- The manifest among the `left` files from `pos` on; nothing when a length overflows. -/
def archiveManifestAt (a : List Byte) : (pos left : Nat) → Option Str
  | _, 0 => some []
  | pos, left + 1 =>
    if pos + 2 > a.length then some []
    else
      let p3 := pos + 2 + readLeU16 a pos
      if p3 + 8 > a.length then some []
      else
        match readLeU64 a p3 with
        | none => none
        | some clen =>
          let p4 := p3 + 8
          if clen > a.length - p4 then some []
          else if bytesToAscii ((a.take p3).drop (pos + 2)) = "resid.toml".toList then
            some (bytesToAscii ((a.take (p4 + clen)).drop p4))
          else archiveManifestAt a (p4 + clen) left

def archiveManifest (a : List Byte) : Option Str :=
  let h := readArchiveHeader a
  if !h.ok then some [] else archiveManifestAt a 13 h.count

def stripQuotes (v : Str) : Str :=
  if strLen v < 2 then v
  else if strCharAt v 0 ≠ 34 then v
  else if strCharAt v (strLen v - 1) ≠ 34 then v
  else strSlice v 1 (strLen v - 1)

def manifestFieldAt (key : Str) : List Str → Str
  | [] => []
  | line :: lines =>
    let t := strTrim line
    let eq := t.findIdx (· == '=')
    if eq < strLen t ∧ strTrim (strSlice t 0 eq) = key then
      stripQuotes (strTrim (strSlice t (eq + 1) (strLen t)))
    else manifestFieldAt key lines

def manifestField (text key : Str) : Str := manifestFieldAt key (strSplit text ['\n'])

/-!
## The registry index

A line `<name> <version> <sha256>` for each published version, behind a comment, the serial
of the index and the time it expires.  Lines that are none of these are passed over.
-/

open Package

structure IdxEntry where
  name : Str
  version : Str
  sha256 : Str
deriving DecidableEq

def idxCmp (a b : IdxEntry) : Int :=
  let c := strCmp a.name b.name
  if c ≠ 0 then c else strCmp a.version b.version

def insertSortedIdx (ie : IdxEntry) (acc : List IdxEntry) : List IdxEntry :=
  acc.orderedInsert (fun a b => idxCmp a b < 0) ie

def sortIdxEntries (xs : List IdxEntry) : List IdxEntry :=
  xs.foldl (fun acc x => insertSortedIdx x acc) []

/-! ## Reading -/

def parseIndexLine (t : Str) (acc : List IdxEntry) : List IdxEntry :=
  match splitWs t with
  | [name, version, sha256] => acc ++ [⟨name, version, sha256⟩]
  | _ => acc

def parseIndexAcc : List Str → List IdxEntry → List IdxEntry
  | [], acc => acc
  | line :: lines, acc =>
    let t := strTrim line
    parseIndexAcc lines
      (if t = [] then acc else if strStartsWith t ['#'] then acc else parseIndexLine t acc)

def parseIndexText (text : Str) : List IdxEntry := parseIndexAcc (strSplit text ['\n']) []

structure IdxMeta where
  serial : Int
  expires : Int
deriving DecidableEq

/-- The words of one line: the last serial and expiry win. -/
def idxMetaLine (m : IdxMeta) (line : Str) : IdxMeta :=
  match splitWs (strTrim line) with
  | [key, value] =>
    if strIsInt value && key == "@serial".toList then ⟨strParseInt value, m.expires⟩
    else if strIsInt value && key == "@expires".toList then ⟨m.serial, strParseInt value⟩
    else m
  | _ => m

def idxMeta (text : Str) : IdxMeta := (strSplit text ['\n']).foldl idxMetaLine ⟨0, 0⟩

/-! ## Writing -/

def idxLine (e : IdxEntry) : Str := e.name ++ " ".toList ++ e.version ++ " ".toList ++ e.sha256

def idxTtl : Int := 30 * 86400

def idxHeader (m : IdxMeta) : Str :=
  "# resid registry index\n".toList ++ "@serial ".toList ++ intText m.serial ++
    "\n@expires ".toList ++ intText m.expires ++ "\n".toList

def indexText (entries : List IdxEntry) (m : IdxMeta) : Str :=
  let lines := (sortIdxEntries entries).map idxLine
  if lines = [] then idxHeader m else idxHeader m ++ ['\n'].intercalate lines ++ ['\n']

def isNamed (name version : Str) (e : IdxEntry) : Bool := e.name == name && e.version == version

def idxRemove (entries : List IdxEntry) (name version : Str) : List IdxEntry :=
  entries.filter fun e => !isNamed name version e

end Registry
