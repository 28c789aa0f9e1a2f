import Resid.X509.Revocation

/-!
# Chains to the trust store

A server's leaf is walked up to a root: at each certificate the store is asked first, then
the roots, then the intermediates the server sent, of which the first that accepts is
followed.  What a CA may say about the certificates beneath it is checked at every link.

## Algorithm

`chainToStore` climbs, each step taking one intermediate out of the pool; `issuerAccepts`
and `issuerPathOk` are the test of one link.  A dNSName that is empty aborts the program
where it is matched, so matching answers in `Option`.
-/

namespace X509

open Runtime

/-- An instant; nanoseconds play no part here. -/
structure Instant where
  seconds : Int

/-! ## Host names -/

def ciCh (c : Int) : Int := if c ≥ 65 ∧ c ≤ 90 then c + 32 else c

/-- Equal ignoring ASCII case. -/
def ciEqBytes (a b : List Int) : Bool := a.map ciCh == b.map ciCh

/-- Index of the first `.`, the length when there is none. -/
def dnsFindDot (host : List Int) : Nat := host.findIdx (· == 46)

/-- `host` matches the pattern `pat`; a leading `*.` is one leftmost label. -/
def dnsMatch (host pat : List Int) : Option Bool :=
  match pat with
  | [] => none
  | star :: _ =>
    if star = 42 ∧ pat.length > 2 ∧ at0 pat 1 = 46 then
      let suflen := pat.length - 2
      if host.length < suflen + 2 then some false
      else
        let dot := dnsFindDot host
        if dot < 1 then some false
        else if (host.length : Int) - 1 - dot ≠ suflen then some false
        else some (ciEqBytes (range host (dot + 1) (dot + 1 + suflen)) (pat.drop 2))
    else some (ciEqBytes host pat)

/-- A list of `n` zero bytes. -/
def ipZeroBytes (n : Int) : List Int := List.replicate n.toNat 0

def ipV4At (h : List Int) (val digits : Nat) (acc : List Int) : List Int :=
  match h with
  | [] => if digits = 0 ∨ val > 255 then [] else acc ++ [(val : Int)]
  | c :: h =>
    if c = 46 then
      if digits = 0 ∨ val > 255 then [] else ipV4At h 0 0 (acc ++ [(val : Int)])
    else if c < 48 ∨ c > 57 then []
    else if digits ≥ 3 then []
    else ipV4At h (val * 10 + (c - 48).toNat) (digits + 1) acc

def ipV4Bytes (h : List Int) : List Int :=
  let b := ipV4At h 0 0 []
  if b.length = 4 then b else []

structure IpScan where
  left : List Int
  right : List Int
  gap : Bool
  bad : Bool
  val : Nat
  digits : Nat

def ipBad (s : IpScan) : IpScan := { s with bad := true }

/-- The two bytes of a group. -/
def ipGroup (val : Nat) : List Int := [((val >>> 8 &&& 255 : Nat) : Int), ((val &&& 255 : Nat) : Int)]

def ipV6Push (s : IpScan) : IpScan :=
  if s.gap then ⟨s.left, s.right ++ ipGroup s.val, true, false, 0, 0⟩
  else ⟨s.left ++ ipGroup s.val, s.right, s.gap, false, 0, 0⟩

def ipV6Gap (s : IpScan) : IpScan := ⟨s.left, s.right, true, false, 0, 0⟩

def ipHexDigit (c : Int) : Int :=
  if c ≥ 48 ∧ c ≤ 57 then c - 48
  else if c ≥ 97 ∧ c ≤ 102 then c - 87
  else if c ≥ 65 ∧ c ≤ 70 then c - 55
  else -1

/-- Read `h` into `s`; `first` at the literal's start. -/
def ipV6Scan (h : List Int) (first : Bool) (s : IpScan) : IpScan :=
  match h with
  | [] => s
  | c :: h =>
    if c = 58 then
      match h with
      | 58 :: h' =>
        if s.gap then ipBad s
        else ipV6Scan h' false (ipV6Gap (if s.digits > 0 then ipV6Push s else s))
      | h =>
        if first then ipBad s
        else if s.digits = 0 then ipBad s
        else ipV6Scan h false (ipV6Push s)
    else
      let d := ipHexDigit c
      if d < 0 then ipBad s
      else if s.digits ≥ 4 then ipBad s
      else ipV6Scan h false ⟨s.left, s.right, s.gap, false, s.val * 16 + d.toNat, s.digits + 1⟩
termination_by h.length
decreasing_by all_goals (simp only [List.length_cons]; omega)

def ipV6End (acc : List Int) (val digits : Nat) : List Int :=
  if digits = 0 then acc else if digits > 4 then [] else acc ++ ipGroup val

def ipV6Bytes (host : List Int) : List Int :=
  let s := ipV6Scan host true ⟨[], [], false, false, 0, 0⟩
  if s.bad then []
  else
    let l := ipV6End s.left s.val s.digits
    let r := s.right
    if s.gap then
      if l.length + r.length > 14 then []
      else l ++ ipZeroBytes (16 - l.length - r.length) ++ r
    else if l.length + r.length ≠ 16 then []
    else l ++ r

/-- The bytes an address literal names, none for anything else. -/
def ipAddrBytes (host : List Int) : List Int :=
  if host.contains 58 then ipV6Bytes host else ipV4Bytes host

def ipSanHit (addr host : List Int) : Bool :=
  if addr.length ≠ 4 ∧ addr.length ≠ 16 then false
  else ipAddrBytes host == addr

def sanAnyDns (host : List Int) : List (List Int) → Option Bool
  | [] => some false
  | pat :: names =>
    match dnsMatch host pat with
    | none => none
    | some true => some true
    | some false => sanAnyDns host names

def certSanMatch (c : Cert) (host : List Int) : Option Bool :=
  match sanAnyDns host (certSan c 130) with
  | none => none
  | some true => some true
  | some false => some ((certSan c 135).any fun addr => ipSanHit addr host)

/-! ## Path constraints -/

def certValidAt (c : Cert) (now : Instant) : Bool :=
  decide (now.seconds ≥ c.notBefore) && decide (now.seconds ≤ c.notAfter)

/-- pathLenConstraint, -1 when absent, 0 when malformed. -/
def certPathLen (c : Cert) : Int :=
  let bc := certExtInner c oidBasicConstraints
  if !bc.ok || bc.tag != 48 || bc.len == 0 then -1
  else
    let first := derChild c.der bc
    if derIsLast first bc then -1
    else
      let pl := derSibling c.der first bc
      if !pl.ok || pl.tag != 2 || !derIsLast pl bc then 0
      else
        let n := derSmallUint c.der pl
        if n < 0 then 0 else n

def tlsCritKnown (o : Str) : Bool :=
  o == oidBasicConstraints || o == oidKeyUsage || o == oidExtKeyUsage || o == oidSubjectAltName ||
    o == oidNameConstraints

def certCritScan (b : List Int) : List Der → Bool
  | [] => true
  | e :: es =>
    if !e.ok then false
    else
      let id := derChild b e
      let v1 := derSibling b id e
      let crit := v1.ok && v1.tag == 1 && at0 b v1.start == 255
      if crit && !tlsCritKnown (derOid b id) then false else certCritScan b es

/-- Every critical extension is one the walk processes. -/
def certCritOk (c : Cert) : Bool :=
  if !c.exts.ok then true else certCritScan c.der (derElements c.der (derChild c.der c.exts))

/-- One side of a name constraint: dNSName bases, and addresses with their masks. -/
structure NcSet where
  ok : Bool
  dns : List (List Int)
  ip : List (List Int)

structure NameCons where
  ok : Bool
  permit : NcSet
  exclude : NcSet

def ncEmpty : NcSet := ⟨true, [], []⟩

def ncBad : NcSet := ⟨false, [], []⟩

def ncAdd (b : List Int) (base : Der) (acc : NcSet) : NcSet :=
  if base.tag = 130 then ⟨true, acc.dns ++ [derValue b base], acc.ip⟩
  else if base.tag = 135 ∧ (base.len = 8 ∨ base.len = 32) then
    ⟨true, acc.dns, acc.ip ++ [derValue b base]⟩
  else ncBad

def ncScan (b : List Int) : List Der → NcSet → NcSet
  | [], acc => acc
  | e :: es, acc =>
    if !e.ok || e.tag != 48 then ncBad
    else
      let base := derChild b e
      if !base.ok || !derIsLast base e then ncBad
      else
        let acc2 := ncAdd b base acc
        if !acc2.ok then acc2 else ncScan b es acc2

def ncSide (b : List Int) (side : Der) : NcSet :=
  if !(derChild b side).ok then ncBad else ncScan b (derElements b side) ncEmpty

def certNameCons (c : Cert) : NameCons :=
  let bad : NameCons := ⟨false, ncBad, ncBad⟩
  if !(certExt c oidNameConstraints).ok then ⟨true, ncEmpty, ncEmpty⟩
  else
    let nc := certExtInner c oidNameConstraints
    if !nc.ok || nc.tag != 48 || nc.len == 0 then bad
    else
      let first := derChild c.der nc
      if !first.ok then bad
      else if first.tag = 161 then
        if !derIsLast first nc then bad
        else
          let x := ncSide c.der first
          ⟨x.ok, ncEmpty, x⟩
      else if first.tag ≠ 160 then bad
      else
        let p := ncSide c.der first
        if derIsLast first nc then ⟨p.ok, p, ncEmpty⟩
        else
          let second := derSibling c.der first nc
          if !second.ok || second.tag != 161 || !derIsLast second nc then bad
          else
            let x := ncSide c.der second
            ⟨p.ok && x.ok, p, x⟩

/-- `a` ends with `suf`, ignoring ASCII case. -/
def ciEndsWith (a suf : List Int) : Bool :=
  if a.length < suf.length then false else ciEqBytes (a.drop (a.length - suf.length)) suf

def dnsWithin (n base : List Int) : Bool :=
  if base.length = 0 then true
  else if at0 base 0 = 46 then decide (n.length > base.length) && ciEndsWith n base
  else if n.length = base.length then ciEqBytes n base
  else decide (n.length > base.length) && at0 n (n.length - base.length - 1) == 46 &&
    ciEndsWith n base

def ipWithin (a base : List Int) : Bool :=
  let n := a.length
  if base.length ≠ 2 * n ∨ n = 0 then false
  else (List.range n).all fun i =>
    band (at0 a i) (at0 base (n + i)).toNat == band (at0 base i) (at0 base (n + i)).toNat

def ncDnsOk (k : NameCons) (n : List Int) : Bool :=
  if k.permit.dns.length > 0 ∧ !k.permit.dns.any (dnsWithin n) then false
  else !k.exclude.dns.any (dnsWithin n)

def ncIpOk (k : NameCons) (a : List Int) : Bool :=
  if k.permit.ip.length > 0 ∧ !k.permit.ip.any (ipWithin a) then false
  else !k.exclude.ip.any (ipWithin a)

/-- The name constraints admit the leaf's names and the host. -/
def ncAdmits (k : NameCons) (leaf : Cert) (host : List Int) : Bool :=
  if !k.ok then false
  else if !(certSan leaf 130).all (ncDnsOk k) || !(certSan leaf 135).all (ncIpOk k) then false
  else
    let ip := ipAddrBytes host
    if ip.length > 0 then ncIpOk k ip else ncDnsOk k host

/-- The leaf and the host a chain is walked for. -/
structure TlsPath where
  leaf : Cert
  host : List Int

def certServerAuth (c : Cert) : Bool :=
  if !(certExt c oidExtKeyUsage).ok then true
  else certEkuHas c "1.3.6.1.5.5.7.3.1".toList || certEkuHas c "2.5.29.37.0".toList

structure TrustStore where
  roots : List (List Int)
  crls : List (List Int)
  ocsp : List (List Int)
  revocationRequired : Bool

variable [Verifier]

/-- `issuer`, with `below` CAs between it and the leaf, allows the path. -/
def issuerPathOk (issuer : List Int) (p : TlsPath) (below : Nat) : Bool :=
  match x509Parse issuer with
  | .ok i =>
    certCritOk i && (decide (certPathLen i < 0) || decide ((below : Int) ≤ certPathLen i)) &&
      ncAdmits (certNameCons i) p.leaf p.host
  | .error _ => false

/-! ## One link -/

def chainVerifyParsed (c i : Cert) (now : Instant) : Bool :=
  if c.issuer ≠ i.subject then false
  else if !certValidAt c now || !certValidAt i now then false
  else if !certIsCa i then false
  else if !certKeyUsage i 5 then false
  else sigVerify c.signed.alg i.key c.signed.tbs c.signed.sig

def chainVerify (child issuer : List Int) (now : Instant) : Bool :=
  match x509Parse child, x509Parse issuer with
  | .ok c, .ok i => chainVerifyParsed c i now
  | _, _ => false

structure Rev where
  revoked : Bool
  covered : Bool

def crlCheckAt (cert issuer : List Int) (now : Instant) : List (List Int) → Rev
  | [] => ⟨false, false⟩
  | crl :: crls =>
    let usable := crlUsable crl issuer now.seconds
    if usable && crlRevokes crl cert then ⟨true, true⟩
    else
      let rest := crlCheckAt cert issuer now crls
      if usable && !rest.covered then ⟨rest.revoked, true⟩ else rest

def crlCheck (st : TrustStore) (cert issuer : List Int) (now : Instant) : Rev :=
  crlCheckAt cert issuer now st.crls

def ocspDelegateOk (delegate issuer : List Int) (now : Instant) : Bool :=
  if delegate.length = 0 then false
  else if !x509EkuHas delegate ocspOidOcspSigning then false
  else chainVerify delegate issuer now

def ocspStatusWithDelegate (issuer cert resp : List Int) (now : Instant) : Int :=
  let d := ocspBasic resp
  if d.length = 0 then ocspStatusNoAnswer
  else if x509SignedBy d issuer then ocspAnswered d issuer cert issuer now.seconds
  else
    let delegate := ocspDelegateCert d
    if !ocspDelegateOk delegate issuer now then ocspStatusNoAnswer
    else ocspAnswered d issuer cert delegate now.seconds

def ocspAnyStatus (cert issuer : List Int) (now : Instant) (want : Int) : List (List Int) → Int
  | [] => ocspStatusNoAnswer
  | resp :: pool =>
    let got := ocspStatusWithDelegate issuer cert resp now
    if got = want then got else ocspAnyStatus cert issuer now want pool

def ocspEvidence (st : TrustStore) (cert issuer : List Int) (now : Instant) : Int :=
  let rev := ocspAnyStatus cert issuer now ocspStatusRevoked st.ocsp
  if rev = ocspStatusRevoked then rev else ocspAnyStatus cert issuer now ocspStatusGood st.ocsp

/-- `issuer` certifies `cert` now, revocation included. -/
def issuerAccepts (st : TrustStore) (cert issuer : List Int) (now : Instant) : Bool :=
  if !chainVerify cert issuer now then false
  else
    let r := crlCheck st cert issuer now
    let o := ocspEvidence st cert issuer now
    if r.revoked then false
    else if o = ocspStatusRevoked then false
    else if st.revocationRequired ∧ !r.covered ∧ o = ocspStatusNoAnswer then false
    else true

/-! ## The walk -/

def trustMaxDepth : Nat := 8

def trustStoreHas (st : TrustStore) (der : List Int) : Bool := st.roots.any (· == der)

/-- `issuer` may stand above `cert`. -/
def linkOk (st : TrustStore) (now : Instant) (p : TlsPath) (below : Nat)
    (cert issuer : List Int) : Bool :=
  issuerAccepts st cert issuer now && issuerPathOk issuer p below

def anyRootVerifies (st : TrustStore) (cert : List Int) (now : Instant) (p : TlsPath)
    (below : Nat) : Bool :=
  st.roots.any (linkOk st now p below cert)

/-- The first of the pool that accepts. -/
def findIssuerHit (st : TrustStore) (pool : List (List Int)) (cert : List Int) (now : Instant)
    (p : TlsPath) (below : Nat) : Option Nat :=
  pool.findIdx? (linkOk st now p below cert)

def poolWithout (pool : List (List Int)) (idx : Nat) : List (List Int) := pool.eraseIdx idx

/-- `cert` is in the store, or a root certifies it. -/
def storeReached (st : TrustStore) (now : Instant) (p : TlsPath) (below : Nat)
    (cert : List Int) : Bool :=
  if trustStoreHas st cert then true else anyRootVerifies st cert now p below

/-- Leaf upwards, at most `depth` intermediates on. -/
def chainToStore (st : TrustStore) (now : Instant) (p : TlsPath) :
    (depth : Nat) → (cert : List Int) → (pool : List (List Int)) → (below : Nat) → Bool
  | 0, cert, _, below => storeReached st now p below cert
  | depth + 1, cert, pool, below =>
    if storeReached st now p below cert then true
    else
      match findIssuerHit st pool cert now p below with
      | none => false
      | some idx => chainToStore st now p depth (pool.getD idx []) (poolWithout pool idx) (below + 1)

/-- Full server authentication; none where the program aborts. -/
def tlsServerTrusted (leaf : List Int) (inters : List (List Int)) (host : List Int)
    (now : Instant) (st : TrustStore) : Option Bool :=
  if st.roots.length = 0 then some false
  else
    match x509Parse leaf with
    | .error _ => some false
    | .ok c =>
      if !certValidAt c now then some false
      else
        match certSanMatch c host with
        | none => none
        | some false => some false
        | some true =>
          some (certCritOk c && certServerAuth c &&
            chainToStore st now ⟨c, host⟩ trustMaxDepth leaf inters 0)

end X509
