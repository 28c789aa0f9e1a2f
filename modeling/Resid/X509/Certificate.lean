import Resid.X509.Der

/-!
# Certificates

A certificate is parsed once, strictly, into `Cert`; everything verification asks is asked of
that.  Signature checking, the test that a point is on its curve and SHA-1 are given.

## Algorithm

`x509Parse` reads the fields of the signed body in order, each from the sibling of the one
before, and checks that the extensions are well formed and none stands twice.
-/

namespace X509

open Runtime

inductive HashAlg
  | sha1 | sha256 | sha384 | sha512
  deriving DecidableEq

inductive Curve
  | p256 | p384 | p521
  deriving DecidableEq

def hashLen : HashAlg → Nat
  | .sha1 => 20
  | .sha256 => 32
  | .sha384 => 48
  | .sha512 => 64

def hashSame (a b : HashAlg) : Bool := hashLen a == hashLen b

def hashFromOid (oid : Str) : Option HashAlg :=
  if oid = "2.16.840.1.101.3.4.2.1".toList then some .sha256
  else if oid = "2.16.840.1.101.3.4.2.2".toList then some .sha384
  else if oid = "2.16.840.1.101.3.4.2.3".toList then some .sha512
  else if oid = "1.3.14.3.2.26".toList then some .sha1
  else none

def curveFromOid (oid : Str) : Option Curve :=
  if oid = "1.2.840.10045.3.1.7".toList then some .p256
  else if oid = "1.3.132.0.34".toList then some .p384
  else if oid = "1.3.132.0.35".toList then some .p521
  else none

/-- A signature algorithm: kind 0 unsupported, 1 ECDSA, 2 PKCS#1, 3 PSS, 4 Ed25519. -/
structure SigAlg where
  kind : Int
  hash : HashAlg
  mgf : HashAlg
  salt : Int
  deriving DecidableEq

/-- A public key: kind 0 unusable, 1 EC, 2 RSA, 3 Ed25519. -/
structure PubKey where
  kind : Int
  curve : Curve
  point : List Int
  n : List Int
  e : List Int
  pssOnly : Bool
  deriving DecidableEq

/-- The cryptography under verification. -/
class Verifier where
  sigVerify : SigAlg → PubKey → (msg sig : List Int) → Bool
  ecPublicOk : Curve → (pubkey : List Int) → Bool
  sha1Bytes : List Int → List Int

export Verifier (sigVerify ecPublicOk sha1Bytes)

def sigalgNone : SigAlg := ⟨0, .sha256, .sha256, 0⟩

def sa (kind : Int) (h : HashAlg) : SigAlg := ⟨kind, h, h, hashLen h⟩

def pubkeyNone : PubKey := ⟨0, .p256, [], [], [], false⟩

/-! ## Algorithms and keys -/

/-- The parameters after an algorithm's identifier are absent or NULL. -/
def algParamsNullOrAbsent (b : List Int) (oid alg : Der) : Bool :=
  if derIsLast oid alg then true
  else
    let p := derSibling b oid alg
    p.ok && p.tag == 5 && p.len == 0 && derIsLast p alg

def algHash (b : List Int) (alg : Der) : Option HashAlg :=
  if !alg.ok || alg.tag != 48 then none
  else
    let oid := derChild b alg
    if !algParamsNullOrAbsent b oid alg then none
    else
      match hashFromOid (derOid b oid) with
      | some x => if hashLen x ≥ 32 then some x else none
      | none => none

/-- RSASSA-PSS parameters; both hashes are there and the same. -/
def algPss (b : List Int) (params : Der) : SigAlg :=
  if !params.ok || params.tag != 48 then sigalgNone
  else
    let h0 := derChild b params
    if !h0.ok || h0.tag != 160 then sigalgNone
    else
      let m0 := derSibling b h0 params
      if !m0.ok || m0.tag != 161 then sigalgNone
      else
        let rest := if derIsLast m0 params then derBad else derSibling b m0 params
        if !derIsLast m0 params && !rest.ok then sigalgNone
        else
          let hasSalt := rest.ok && rest.tag == 162
          let afterSalt :=
            if hasSalt && !derIsLast rest params then derSibling b rest params
            else if hasSalt then derBad else rest
          if afterSalt.ok && (afterSalt.tag != 163 || !derIsLast afterSalt params) then sigalgNone
          else if hasSalt && !derIsLast rest params && !afterSalt.ok then sigalgNone
          else
            let tv := derChild b afterSalt
            if afterSalt.ok && (!derIsLast tv afterSalt || derSmallUint b tv != 1) then sigalgNone
            else
              let ha := derChild b h0
              if !derIsLast ha h0 then sigalgNone
              else
                let h := algHash b ha
                let ma := derChild b m0
                if !derIsLast ma m0 || ma.tag != 48 then sigalgNone
                else
                  let moid := derChild b ma
                  if derOid b moid != "1.2.840.113549.1.1.8".toList then sigalgNone
                  else
                    let mh := derSibling b moid ma
                    if !derIsLast mh ma then sigalgNone
                    else
                      let mgf := algHash b mh
                      let sv := if hasSalt then derChild b rest else derBad
                      if hasSalt && !derIsLast sv rest then sigalgNone
                      else
                        let salt := if hasSalt then derSmallUint b sv else 20
                        match h, mgf with
                        | some hx, some mx =>
                          if hashSame hx mx && salt ≥ 0 && salt ≤ 1024 then ⟨3, hx, mx, salt⟩
                          else sigalgNone
                        | _, _ => sigalgNone

def sigalgParse (b : List Int) (alg : Der) : SigAlg :=
  if !alg.ok || alg.tag != 48 then sigalgNone
  else
    let oid := derChild b alg
    let o := derOid b oid
    let noneParams := derIsLast oid alg
    let rsaParams := algParamsNullOrAbsent b oid alg
    if o = "1.2.840.10045.4.3.2".toList then if noneParams then sa 1 .sha256 else sigalgNone
    else if o = "1.2.840.10045.4.3.3".toList then if noneParams then sa 1 .sha384 else sigalgNone
    else if o = "1.2.840.10045.4.3.4".toList then if noneParams then sa 1 .sha512 else sigalgNone
    else if o = "1.3.101.112".toList then if noneParams then sa 4 .sha512 else sigalgNone
    else if o = "1.2.840.113549.1.1.11".toList then
      if rsaParams then sa 2 .sha256 else sigalgNone
    else if o = "1.2.840.113549.1.1.12".toList then
      if rsaParams then sa 2 .sha384 else sigalgNone
    else if o = "1.2.840.113549.1.1.13".toList then
      if rsaParams then sa 2 .sha512 else sigalgNone
    else if o = "1.2.840.113549.1.1.10".toList then
      if noneParams then sigalgNone
      else
        let params := derSibling b oid alg
        if !derIsLast params alg then sigalgNone else algPss b params
    else sigalgNone

def rsaKeyParts (k : List Int) (pssOnly : Bool) : PubKey :=
  let seq := derTop k
  if !seq.ok || seq.tag != 48 then pubkeyNone
  else
    let dn := derChild k seq
    let de := derSibling k dn seq
    if !derIsLast de seq then pubkeyNone
    else
      match derUint k dn, derUint k de with
      | some n, some e => ⟨2, .p256, [], n, e, pssOnly⟩
      | _, _ => pubkeyNone

variable [Verifier]

def spkiParse (b : List Int) (spki : Der) : PubKey :=
  if !spki.ok || spki.tag != 48 then pubkeyNone
  else
    let alg := derChild b spki
    let bits := derSibling b alg spki
    if !alg.ok || alg.tag != 48 || !derIsLast bits spki then pubkeyNone
    else
      match derBits b bits with
      | none => pubkeyNone
      | some key =>
        let oid := derChild b alg
        let o := derOid b oid
        if o = "1.2.840.10045.2.1".toList then
          let cp := derSibling b oid alg
          if !derIsLast cp alg || cp.tag != 6 then pubkeyNone
          else
            match curveFromOid (derOid b cp) with
            | some cv => if ecPublicOk cv key then ⟨1, cv, key, [], [], false⟩ else pubkeyNone
            | none => pubkeyNone
        else if o = "1.2.840.113549.1.1.1".toList then
          if !algParamsNullOrAbsent b oid alg then pubkeyNone else rsaKeyParts key false
        else if o = "1.2.840.113549.1.1.10".toList then rsaKeyParts key true
        else if o = "1.3.101.112".toList then
          if !derIsLast oid alg || key.length != 32 then pubkeyNone
          else ⟨3, .p256, key, [], [], false⟩
        else pubkeyNone

/-! ## Signed structures -/

/-- A signed structure: its body as encoded, the element, the algorithm and the signature. -/
structure Signed where
  tbs : List Int
  tbsEl : Der
  alg : SigAlg
  algDer : List Int
  sig : List Int
  deriving DecidableEq

omit [Verifier] in
def signedParse (b : List Int) (outer : Der) : Except Str Signed :=
  if !outer.ok || outer.tag != 48 then .error "not a SEQUENCE".toList
  else
    let tbs := derChild b outer
    if !tbs.ok || tbs.tag != 48 then .error "no signed body".toList
    else
      let alg := derSibling b tbs outer
      let sig := derSibling b alg outer
      if !alg.ok || !sig.ok then .error "truncated".toList
      else
        match derBits b sig with
        | none => .error "bad signature BIT STRING".toList
        | some sv => .ok ⟨derEncoded b tbs, tbs, sigalgParse b alg, derEncoded b alg, sv⟩

/-! ## Times -/

/-- The number the digits of `s` write, after `acc`; -1 when one is no digit. -/
def timeDigits (s : Str) (acc : Int) : Int :=
  match s with
  | [] => acc
  | c :: s =>
    let d : Int := (c.toNat : Int) - 48
    if d < 0 ∨ d > 9 then -1 else timeDigits s (acc * 10 + d)

def calIsLeap (y : Int) : Bool :=
  if y.tmod 4 ≠ 0 then false else if y.tmod 100 ≠ 0 then true else y.tmod 400 == 0

def calDaysInMonth (y m : Int) : Int :=
  if m = 1 ∨ m = 3 ∨ m = 5 ∨ m = 7 ∨ m = 8 ∨ m = 10 ∨ m = 12 then 31
  else if m = 4 ∨ m = 6 ∨ m = 9 ∨ m = 11 then 30
  else if m = 2 then if calIsLeap y then 29 else 28
  else 0

/-- Days since 1970-01-01. -/
def calDaysFromCivil (y m d : Int) : Int :=
  let adj := if m ≤ 2 then y - 1 else y
  let era := if adj ≥ 0 then adj.tdiv 400 else (adj - 399).tdiv 400
  let yoe := adj - era * 400
  let shift := if m > 2 then m - 3 else m + 9
  let doy := (153 * shift + 2).tdiv 5 + d - 1
  let doe := yoe * 365 + yoe.tdiv 4 - yoe.tdiv 100 + doy
  era * 146097 + doe - 719468

/-- A time as seconds since the epoch, -1 for a text that is none. -/
def x509TimeToUnix (s : Str) : Int :=
  let n := strLen s
  if n ≠ 13 ∧ n ≠ 15 then -1
  else if strCharAt s (n - 1) ≠ 90 then -1
  else
    let utc := n == 13
    let p := if utc then 2 else 4
    let yy := timeDigits (strSlice s 0 p) 0
    let mo := timeDigits (strSlice s p (p + 2)) 0
    let d := timeDigits (strSlice s (p + 2) (p + 4)) 0
    let hh := timeDigits (strSlice s (p + 4) (p + 6)) 0
    let mi := timeDigits (strSlice s (p + 6) (p + 8)) 0
    let ss := timeDigits (strSlice s (p + 8) (p + 10)) 0
    if yy < 0 ∨ mo < 1 ∨ mo > 12 ∨ d < 1 ∨ hh < 0 ∨ mi < 0 ∨ ss < 0 then -1
    else
      let year := if utc then if yy < 50 then 2000 + yy else 1900 + yy else yy
      if d > calDaysInMonth year mo then -1
      else if hh > 23 ∨ mi > 59 ∨ ss > 60 then -1
      else calDaysFromCivil year mo d * 86400 + hh * 3600 + mi * 60 + ss

def x509TimeStr (b : List Int) (t : Der) : Str :=
  if !t.ok || (t.tag != 23 && t.tag != 24) || t.len > 32 then []
  else derStrAcc (range b t.start t.next)

def x509TimeAt (b : List Int) (t : Der) : Int :=
  let s := x509TimeStr b t
  if s = [] then -1
  else if (t.tag = 23 ∧ strLen s ≠ 13) ∨ (t.tag = 24 ∧ strLen s ≠ 15) then -1
  else x509TimeToUnix s

/-! ## Certificates -/

/-- What verification reads from a certificate; names as encoded, times in seconds, `exts`
the extensions' element, not ok when there are none. -/
structure Cert where
  der : List Int
  signed : Signed
  version : Int
  serial : List Int
  issuer : List Int
  subject : List Int
  notBefore : Int
  notAfter : Int
  key : PubKey
  spki : List Int
  exts : Der
  deriving DecidableEq

/-- The extensions after the key, tag -1 when what stands there is malformed. -/
def x509Tail (b : List Int) (spki tbs : Der) : Der :=
  let bad : Der := ⟨false, -1, 0, 0, 0, 0⟩
  if derIsLast spki tbs then derBad
  else
    let e1 := derSibling b spki tbs
    if !e1.ok then bad
    else
      let e2 := if e1.tag == 129 && !derIsLast e1 tbs then derSibling b e1 tbs else e1
      if e1.tag == 129 && derIsLast e1 tbs then derBad
      else
        let e3 := if e2.tag == 130 && !derIsLast e2 tbs then derSibling b e2 tbs else e2
        if e2.tag == 130 && derIsLast e2 tbs then derBad
        else if !e3.ok || e3.tag != 163 || !derIsLast e3 tbs then bad
        else e3

/-- Each extension is an identifier not `seen` before, a BOOLEAN perhaps, and a value. -/
def x509ExtScan (b : List Int) : List Der → List Str → Bool
  | [], _ => true
  | e :: es, seen =>
    if !e.ok || e.tag != 48 then false
    else
      let oid := derChild b e
      let o := derOid b oid
      if o = [] ∨ o ∈ seen then false
      else
        let v1 := derSibling b oid e
        let crit := v1.ok && v1.tag == 1
        if crit && (v1.len != 1 || at0 b v1.start != 255) then false
        else
          let v := if crit then derSibling b v1 e else v1
          if !v.ok || v.tag != 4 || !derIsLast v e then false
          else x509ExtScan b es (seen ++ [o])

def x509ExtsWellformed (b : List Int) (e3 : Der) : Bool :=
  let seq := derChild b e3
  if !seq.ok || seq.tag != 48 || !derIsLast seq e3 || seq.len == 0 then false
  else x509ExtScan b (derElements b seq) []

/-- A DER certificate, parsed strictly. -/
def x509Parse (der : List Int) : Except Str Cert :=
  let outer := derTop der
  if !outer.ok then .error "not one DER element".toList
  else
    match signedParse der outer with
    | .error e => .error e
    | .ok sg =>
      let tbs := sg.tbsEl
      let f0 := derChild der tbs
      if !f0.ok then .error "empty TBSCertificate".toList
      else
        let hasVer := f0.tag == 160
        let vint := if hasVer then derChild der f0 else derBad
        let version := if hasVer then derSmallUint der vint else 0
        if hasVer && (!derIsLast vint f0 || version < 0 || version > 2) then
          .error "bad version".toList
        else
          let serial := if hasVer then derSibling der f0 tbs else f0
          let padded20 := serial.ok && serial.len == 21 && at0 der serial.start == 0 &&
            at0 der (serial.start + 1) ≥ 128
          if !serial.ok || serial.tag != 2 || serial.len < 1 || (serial.len > 20 && !padded20) then
            .error "bad serial number".toList
          else
            let alg := derSibling der serial tbs
            let issuer := derSibling der alg tbs
            let validity := derSibling der issuer tbs
            let nb := derChild der validity
            let na := derSibling der nb validity
            let t0 := x509TimeAt der nb
            let t1 := x509TimeAt der na
            let subject := derSibling der validity tbs
            let spki := derSibling der subject tbs
            let exts := x509Tail der spki tbs
            if !alg.ok || alg.tag != 48 then .error "bad signature algorithm".toList
            else if derEncoded der alg ≠ sg.algDer then
              .error "inner and outer signature algorithms differ".toList
            else if !issuer.ok || issuer.tag != 48 then .error "bad issuer".toList
            else if !validity.ok || validity.tag != 48 then .error "bad validity".toList
            else if !derIsLast na validity then .error "bad validity".toList
            else if t0 = -1 ∨ t1 = -1 then .error "bad validity time".toList
            else if !subject.ok || subject.tag != 48 then .error "bad subject".toList
            else if !spki.ok || spki.tag != 48 then .error "bad subjectPublicKeyInfo".toList
            else if exts.tag = -1 then .error "bad optional fields after the key".toList
            else if exts.ok && !x509ExtsWellformed der exts then .error "bad extensions".toList
            else
              .ok ⟨der, sg, version, derValue der serial, derEncoded der issuer,
                derEncoded der subject, t0, t1, spkiParse der spki, derEncoded der spki, exts⟩

/-! ## Extensions of a parsed certificate -/

section Queries

omit [Verifier]

/-- The value of the extension `oid` among `es`. -/
def certExtScan (b : List Int) (oid : Str) : List Der → Der
  | [] => derBad
  | e :: es =>
    if !e.ok then derBad
    else
      let id := derChild b e
      let v1 := derSibling b id e
      let v := if v1.ok && v1.tag == 1 then derSibling b v1 e else v1
      if derOid b id = oid then v else certExtScan b oid es

def certExt (c : Cert) (oid : Str) : Der :=
  if !c.exts.ok then derBad
  else certExtScan c.der oid (derElements c.der (derChild c.der c.exts))

/-- The one element an extension's value holds. -/
def certExtInner (c : Cert) (oid : Str) : Der :=
  let v := certExt c oid
  if !v.ok then derBad
  else
    let inner := derAt c.der v.start (derEnd v)
    if !inner.ok || inner.next != derEnd v then derBad else inner

def oidBasicConstraints : Str := "2.5.29.19".toList

def oidKeyUsage : Str := "2.5.29.15".toList

def oidExtKeyUsage : Str := "2.5.29.37".toList

def oidSubjectAltName : Str := "2.5.29.17".toList

def oidNameConstraints : Str := "2.5.29.30".toList

def certIsCa (c : Cert) : Bool :=
  let bc := certExtInner c oidBasicConstraints
  if !bc.ok || bc.tag != 48 || bc.len == 0 then false
  else
    let first := derChild c.der bc
    first.ok && first.tag == 1 && first.len == 1 && at0 c.der first.start == 255

def x509BitMask (bit : Nat) : Nat := if bit > 7 then 0 else 2 ^ (7 - bit)

/-- Bit `bit` of keyUsage; a certificate without one is unrestricted. -/
def certKeyUsage (c : Cert) (bit : Nat) : Bool :=
  let ku := certExtInner c oidKeyUsage
  if !(certExt c oidKeyUsage).ok then true
  else if !ku.ok || ku.tag != 3 || ku.len < 2 then false
  else
    let byte := 1 + bit / 8
    if byte ≥ ku.len then false
    else band (at0 c.der (ku.start + byte)) (x509BitMask (bit % 8)) != 0

def certOidIn (b : List Int) (oid : Str) : List Der → Bool
  | [] => false
  | e :: es => if !e.ok then false else if derOid b e = oid then true else certOidIn b oid es

def certEkuHas (c : Cert) (oid : Str) : Bool :=
  let eku := certExtInner c oidExtKeyUsage
  if !eku.ok || eku.tag != 48 then false else certOidIn c.der oid (derElements c.der eku)

def certSanScan (b : List Int) (tag : Int) : List Der → List (List Int) → List (List Int)
  | [], acc => acc
  | e :: es, acc =>
    if !e.ok then acc
    else certSanScan b tag es (if e.tag = tag then acc ++ [derValue b e] else acc)

/-- The subjectAltName entries of one kind: 130 dNSName, 135 iPAddress. -/
def certSan (c : Cert) (tag : Int) : List (List Int) :=
  let gns := certExtInner c oidSubjectAltName
  if !gns.ok || gns.tag != 48 then [] else certSanScan c.der tag (derElements c.der gns) []

end Queries

def x509EkuHas (cert : List Int) (oid : Str) : Bool :=
  match x509Parse cert with
  | .ok c => certEkuHas c oid
  | .error _ => false

/-! ## Positions in an encoding -/

section Positions

omit [Verifier]

def x509TbsPos (cert : List Int) : Int := derContentPos cert 0

def x509BodyPos (cert : List Int) : Int := derContentPos cert (x509TbsPos cert)

/-- Past the optional version. -/
def x509AfterVersion (cert : List Int) : Int :=
  let body := x509BodyPos cert
  let t := derNext cert body
  if t.cls ≠ 2 then body else body + t.hdrLen + t.valLen

def x509SerialPos (cert : List Int) : Int := x509AfterVersion cert

def x509SigalgPos (cert : List Int) : Int := x509SkipTlv cert (x509SerialPos cert)

def x509IssuerPos (cert : List Int) : Int := x509SkipTlv cert (x509SigalgPos cert)

def x509ValidityPos (cert : List Int) : Int := x509SkipTlv cert (x509IssuerPos cert)

def x509SubjectPos (cert : List Int) : Int := x509SkipTlv cert (x509ValidityPos cert)

def x509SpkiPos (cert : List Int) : Int := x509SkipTlv cert (x509SubjectPos cert)

def x509SerialBytes (cert : List Int) : List Int := derContent cert (x509SerialPos cert)

end Positions

/-- The structure `der` is signed by the key of the certificate `issuer`. -/
def x509SignedBy (der issuer : List Int) : Bool :=
  match signedParse der (derTop der), x509Parse issuer with
  | .ok s, .ok c => sigVerify s.alg c.key s.tbs s.sig
  | _, _ => false

end X509
