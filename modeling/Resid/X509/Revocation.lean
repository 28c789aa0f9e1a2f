import Mathlib.Data.Nat.Digits.Defs
import Resid.X509.Certificate

/-!
# Revocation: CRLs and OCSP responses

A CRL or a response is evidence about a certificate only when it is signed for the issuer
asked about and current.  Positions are into the list or response; -1 is nowhere.

    derPositions data stop (data.length + 1 + k) p = derPositions data stop (data.length + 1) p
                                                                       (derPositions_fuel)
-/

namespace X509

open Runtime

/-- The elements from `p` on before `stop`, a malformed one the last. -/
def derPositions (data : List Int) (stop : Int) : Nat → Int → List Int
  | 0, _ => []
  | fuel + 1, p =>
    if p ≥ stop then []
    else if (derNext data p).valLen < 0 then [p]
    else p :: derPositions data stop fuel (x509SkipTlv data p)

/-- Inside and well formed: the element at `pos` is wholly in the buffer. -/
def ocspFits (d : List Int) (pos : Int) : Bool :=
  let t := derNext d pos
  if t.valLen < 0 then false
  else
    let c := derContentPos d pos
    if c < 0 then false else c + t.valLen ≤ d.length

/-! ## CRLs -/

def crlTbsPos (crl : List Int) : Int := derContentPos crl 0

def crlBodyPos (crl : List Int) : Int := derContentPos crl (crlTbsPos crl)

def crlAfterVersion (crl : List Int) : Int :=
  let body := crlBodyPos crl
  let t := derNext crl body
  if t.valLen < 0 then -1
  else if t.cls = 0 ∧ t.tag = 2 then x509SkipTlv crl body
  else body

def crlSigalgPos (crl : List Int) : Int := crlAfterVersion crl

/-- The element after the one at `p`, nowhere when `p` is. -/
def crlStep (crl : List Int) (p : Int) : Int := if p < 0 then -1 else x509SkipTlv crl p

def crlIssuerPos (crl : List Int) : Int := crlStep crl (crlSigalgPos crl)

def crlThisUpdatePos (crl : List Int) : Int := crlStep crl (crlIssuerPos crl)

def crlNextUpdatePos (crl : List Int) : Int := crlStep crl (crlThisUpdatePos crl)

def crlRevokedPos (crl : List Int) : Int :=
  let p := crlNextUpdatePos crl
  if p < 0 then -1
  else
    let q := x509SkipTlv crl p
    if q < 0 then -1 else if derIsSeq crl q 16 then q else -1

/-- The serials of the entries at these positions. -/
def crlSerialsAcc (crl : List Int) : List Int → List (List Int) → List (List Int)
  | [], acc => acc
  | p :: ps, acc =>
    let t := derNext crl p
    if t.valLen < 0 then acc
    else crlSerialsAcc crl ps (acc ++ [derContent crl (p + t.hdrLen)])

/-- Every serial the CRL lists. -/
def crlRevokedSerials (crl : List Int) : List (List Int) :=
  let p := crlRevokedPos crl
  if p < 0 then []
  else
    let t := derNext crl p
    let q := p + t.hdrLen
    crlSerialsAcc crl (derPositions crl (q + t.valLen) (crl.length + 1) q) []

def crlRevokes (crl cert : List Int) : Bool :=
  (crlRevokedSerials crl).any fun serial => serial == x509SerialBytes cert

/-- The content of the element at `pos`, as a Name is compared. -/
def nameAt (data : List Int) (pos : Int) : List Int :=
  derSliceSeeded data (derContentPos data pos) (x509SkipTlv data pos - 1)

variable [Verifier]

/-- A CRL the issuer signed, current at `now`. -/
def crlUsable (crl issuer : List Int) (now : Int) : Bool :=
  if !x509SignedBy crl issuer then false
  else
    let ip := crlIssuerPos crl
    let tu := crlThisUpdatePos crl
    let thisn := x509TimeToUnix (derStrValue crl tu)
    let nu := crlNextUpdatePos crl
    let nextn := x509TimeToUnix (derStrValue crl nu)
    if ip < 0 then false
    else if nameAt crl ip ≠ nameAt issuer (x509SubjectPos issuer) then false
    else if tu < 0 then false
    else if thisn = -1 then false
    else if now < thisn then false
    else if nu < 0 then false
    else if nextn = -1 then false
    else now ≤ nextn

/-! ## OCSP responses -/

section Fields

omit [Verifier]

def ocspOidBasic : Str := "1.3.6.1.5.5.7.48.1.1".toList

def ocspOidOcspSigning : Str := "1.3.6.1.5.5.7.3.9".toList

def ocspStatusGood : Int := 0

def ocspStatusRevoked : Int := 1

def ocspStatusUnknown : Int := 2

def ocspStatusNoAnswer : Int := -1

/-- An element of class 2 and number `n`. -/
def isContext (t : DerTlv) (n : Nat) : Bool := t.cls == 2 && band t.tag 31 == n

def ocspAfterStatus (b : List Int) : Int :=
  let p := derContentPos b 0
  if p < 0 then -1 else if !ocspFits b p then -1 else x509SkipTlv b p

def ocspResponseBytesPos (b : List Int) : Int :=
  let p := ocspAfterStatus b
  if p < 0 then -1
  else
    let t := derNext b p
    if t.valLen < 0 then -1 else if isContext t 0 then p else -1

/-- The BasicOCSPResponse, empty when the response is not one. -/
def ocspBasic (b : List Int) : List Int :=
  let rb := ocspResponseBytesPos b
  if rb < 0 then []
  else
    let body := derContentPos b (derContentPos b rb)
    if derOidStr b body ≠ ocspOidBasic then []
    else
      let oct := x509SkipTlv b body
      if !ocspFits b oct then [] else derContent b oct

def ocspTbsPos (b : List Int) : Int := derContentPos b 0

def ocspBasicAfterSig (b : List Int) : Int :=
  x509SkipTlv b (x509SkipTlv b (x509SkipTlv b (ocspTbsPos b)))

def ocspBasicCertsPos (b : List Int) : Int :=
  let p := ocspBasicAfterSig b
  let t := derNext b p
  if t.valLen < 0 then -1 else if isContext t 0 then p else -1

def ocspCertsFirst (b : List Int) (p : Int) : Int :=
  let seqc := derContentPos b (derContentPos b p)
  let t := derNext b seqc
  if t.valLen < 0 then -1 else x509SkipTlv b seqc

/-- The responder's own certificate out of the response, empty when there is none. -/
def ocspDelegateCert (d : List Int) : List Int :=
  let cp := ocspBasicCertsPos d
  if cp < 0 then []
  else if !ocspFits d cp then []
  else
    let start := derContentPos d (derContentPos d cp)
    let stop := ocspCertsFirst d cp
    if stop < 0 then [] else if start ≥ stop then [] else if stop > d.length then []
    else derSliceSeeded d start (stop - 1)

def ocspRdResponderId (d : List Int) : Int :=
  let p := derContentPos d (ocspTbsPos d)
  let t := derNext d p
  if t.valLen < 0 then -1 else if isContext t 0 then x509SkipTlv d p else p

def ocspRdResponses (d : List Int) : Int := x509SkipTlv d (x509SkipTlv d (ocspRdResponderId d))

def ocspRdEnd (d : List Int) : Int := x509SkipTlv d (ocspRdResponses d)

def ocspRdFirst (d : List Int) : Int := derContentPos d (ocspRdResponses d)

def ocspSrCertid (d : List Int) (seq : Int) : Int := derContentPos d seq

def ocspSrStatus (d : List Int) (seq : Int) : Int := x509SkipTlv d (ocspSrCertid d seq)

def ocspSrThisUpdate (d : List Int) (seq : Int) : Int := x509SkipTlv d (ocspSrStatus d seq)

def ocspStatusCode (d : List Int) (seq : Int) : Int :=
  let t := derNext d (ocspSrStatus d seq)
  if t.valLen < 0 ∨ t.cls ≠ 2 then -1
  else
    let tag := band t.tag 31
    if tag = 0 then ocspStatusGood
    else if tag = 1 then ocspStatusRevoked
    else if tag = 2 then ocspStatusUnknown
    else -1

/-- The first response at these positions whose CertID is `want`. -/
def ocspFindSr (d want : List Int) : List Int → Int
  | [] => -1
  | i :: is =>
    let t := derNext d i
    if t.valLen < 0 then -1
    else if derContent d (ocspSrCertid d i) = want then i
    else ocspFindSr d want is

def ocspSrNextUpdate (d : List Int) (seq : Int) : Int :=
  let sr := derNext d seq
  if sr.valLen < 0 then -1
  else
    let stop := seq + sr.hdrLen + sr.valLen
    let q := x509SkipTlv d (ocspSrThisUpdate d seq)
    if q < 0 ∨ q ≥ stop then -1
    else
      let t := derNext d q
      if t.valLen < 0 ∨ !isContext t 0 then -1 else derContentPos d q

/-- An element: tag, length in the fewest octets, content. -/
def derEl (tag : Int) (content : List Int) : List Int :=
  let len := content.length
  let octets := (Nat.digits 256 len).reverse.map fun n => (n : Int)
  let hdr : List Int := if len < 128 then [(len : Int)] else (128 + octets.length : Int) :: octets
  tag :: hdr ++ content

def derTlvBytes (data : List Int) (pos : Int) : List Int :=
  let t := derNext data pos
  let c := derContentPos data pos
  range data pos.toNat c.toNat ++ range data c.toNat (c + t.valLen).toNat

end Fields

def ocspCertidFor (issuer cert : List Int) : List Int :=
  let nameHash := sha1Bytes (derTlvBytes issuer (x509SubjectPos issuer))
  let bitp := x509SkipTlv issuer (derContentPos issuer (x509SpkiPos issuer))
  let ksc := derContentPos issuer bitp
  let kv := derNext issuer bitp
  let keyHash := sha1Bytes (derSliceSeeded issuer (ksc + 1) (ksc + kv.valLen - 1))
  let serial := x509SerialBytes cert
  let pad := decide (serial.length > 0) && band (at0 serial 0) 128 != 0
  let n := if pad then 0 :: serial else serial
  let algid := derEl 48 (derEl 6 [43, 14, 3, 2, 26] ++ derEl 5 [])
  algid ++ derEl 4 nameHash ++ derEl 4 keyHash ++ derEl 2 n

/-- What the response says about `cert` under `issuer`, signed by `signer`. -/
def ocspAnswered (d issuer cert signer : List Int) (now : Int) : Int :=
  if !x509SignedBy d signer then ocspStatusNoAnswer
  else
    let want := ocspCertidFor issuer cert
    let seq := ocspFindSr d want (derPositions d (ocspRdEnd d) (d.length + 1) (ocspRdFirst d))
    let tu := x509TimeToUnix (derStrValue d (ocspSrThisUpdate d seq))
    let nu := ocspSrNextUpdate d seq
    let ne := x509TimeToUnix (derStrValue d nu)
    let st := ocspStatusCode d seq
    if seq < 0 then ocspStatusNoAnswer
    else if tu = -1 then ocspStatusNoAnswer
    else if now < tu then ocspStatusNoAnswer
    else if nu ≥ 0 ∧ ne = -1 then ocspStatusNoAnswer
    else if nu ≥ 0 ∧ now > ne then ocspStatusNoAnswer
    else if st = -1 then ocspStatusNoAnswer
    else st

/-! ## Positions move on -/

omit [Verifier] in
/-- A well-formed element ends behind its two first octets and inside the input. -/
theorem x509SkipTlv_bounds {data : List Int} {p : Int} (h : ¬ (derNext data p).valLen < 0) :
    0 ≤ p ∧ p + 2 ≤ x509SkipTlv data p ∧ x509SkipTlv data p ≤ data.length := by
  have hskip : x509SkipTlv data p = p + (derNext data p).hdrLen + (derNext data p).valLen := by
    unfold x509SkipTlv
    rw [if_neg h]
  rw [hskip]
  revert h
  unfold derNext
  by_cases hout : p < 0 ∨ p > (data.length : Int) - 1
  · rw [if_pos hout]
    intro h
    exact absurd (show (-1 : Int) < 0 by omega) h
  rw [if_neg hout]
  by_cases hlen : derReadLen data (p + 1) < 0
  · rw [if_pos hlen]
    intro h
    exact absurd (show (-1 : Int) < 0 by omega) h
  rw [if_neg hlen]
  have hhdr : 1 ≤ derHdrLen data (p + 1) := by
    unfold derHdrLen
    simp only
    split_ifs <;> omega
  by_cases hfit : p + (derHdrLen data (p + 1) + 1) + derReadLen data (p + 1) > data.length
  · rw [if_pos hfit]
    intro h
    exact absurd (show (-1 : Int) < 0 by omega) h
  rw [if_neg hfit]
  intro h
  simp only
  omega

omit [Verifier] in
theorem derPositions_fuel {data : List Int} {stop : Int} {k : Nat} :
    ∀ {n : Nat} {p : Int}, (data.length : Int) - p < n → n ≠ 0 →
      derPositions data stop n p = derPositions data stop (n + k) p := by
  intro n
  induction n with
  | zero => intro p h hn; omega
  | succ n ih =>
    intro p h _
    rw [Nat.succ_add, derPositions, derPositions]
    by_cases hstop : p ≥ stop
    · rw [if_pos hstop, if_pos hstop]
    by_cases hbad : (derNext data p).valLen < 0
    · rw [if_pos hbad, if_pos hbad]
    · rw [if_neg hbad, if_neg hbad]
      have hb := x509SkipTlv_bounds hbad
      rw [ih (by omega) (by omega)]

end X509
