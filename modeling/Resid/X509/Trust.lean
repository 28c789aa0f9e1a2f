import Resid.Lib.Climb
import Resid.X509.Chain

/-!
# What a trusted server's path is made of

A leaf the program trusts has a path of certificates up to a root of the store, and every
link of it was checked: names, signature, dates, CA bits, path length, name constraints,
critical extensions, revocation.

    chainToStore st now p d cert pool n = climb (ladder st now p) d cert pool n   (chainToStore_eq)
    linkOk st now p n cert issuer → Certifies st now p n cert issuer              (linkOk_certifies)
    tlsServerTrusted leaf inters host now st → a path of such links            (trusted_has_path)
-/

namespace X509

open Climb

/-! ## What is asked of a certificate -/

/-- One of the certificate's names is the host. -/
def NamesHost (c : Cert) (host : List Int) : Prop :=
  (∃ n ∈ certSan c 130, dnsMatch host n = some true) ∨ ∃ a ∈ certSan c 135, ipSanHit a host = true

def isCritical (b : List Int) (e : Der) : Bool :=
  let v1 := derSibling b (derChild b e) e
  v1.ok && v1.tag == 1 && at0 b v1.start == 255

/-- Every critical extension is one the walk processes. -/
def CriticalKnown (c : Cert) : Prop :=
  c.exts.ok = true → ∀ e ∈ derElements c.der (derChild c.der c.exts), isCritical c.der e = true →
    tlsCritKnown (derOid c.der (derChild c.der e)) = true

/-- It may authenticate a server: no extended key usage, or one that says so. -/
def MayServe (c : Cert) : Prop :=
  (certExt c oidExtKeyUsage).ok = false ∨ certEkuHas c "1.3.6.1.5.5.7.3.1".toList = true ∨
    certEkuHas c "2.5.29.37.0".toList = true

def DnsAllowed (k : NameCons) (n : List Int) : Prop :=
  (k.permit.dns = [] ∨ ∃ base ∈ k.permit.dns, dnsWithin n base = true) ∧
    ∀ base ∈ k.exclude.dns, dnsWithin n base = false

def IpAllowed (k : NameCons) (a : List Int) : Prop :=
  (k.permit.ip = [] ∨ ∃ base ∈ k.permit.ip, ipWithin a base = true) ∧
    ∀ base ∈ k.exclude.ip, ipWithin a base = false

/-- Name constraints that can be read admit every name of the leaf, and the host. -/
structure Admits (k : NameCons) (p : TlsPath) : Prop where
  readable : k.ok = true
  dns : ∀ n ∈ certSan p.leaf 130, DnsAllowed k n
  ip : ∀ a ∈ certSan p.leaf 135, IpAllowed k a
  hostIp : ipAddrBytes p.host ≠ [] → IpAllowed k (ipAddrBytes p.host)
  hostDns : ipAddrBytes p.host = [] → DnsAllowed k p.host

variable [Verifier]

/-- The CA `i` issued `c` and may stand `below` CAs above the leaf. -/
structure Issued (now : Instant) (p : TlsPath) (below : Nat) (c i : Cert) : Prop where
  name : i.subject = c.issuer
  signed : sigVerify c.signed.alg i.key c.signed.tbs c.signed.sig = true
  current : certValidAt i now = true
  ca : certIsCa i = true
  keyCertSign : certKeyUsage i 5 = true
  pathLen : certPathLen i < 0 ∨ (below : Int) ≤ certPathLen i
  names : Admits (certNameCons i) p
  critical : CriticalKnown i

/-- No usable CRL or response of `issuer` revokes `cert`; one covers it where that is asked. -/
structure Unrevoked (st : TrustStore) (now : Instant) (cert issuer : List Int) : Prop where
  crl : ∀ crl ∈ st.crls, crlUsable crl issuer now.seconds = true → crlRevokes crl cert = false
  ocsp : ∀ resp ∈ st.ocsp, ocspStatusWithDelegate issuer cert resp now ≠ ocspStatusRevoked
  covered : st.revocationRequired = true →
    (∃ crl ∈ st.crls, crlUsable crl issuer now.seconds = true) ∨
      ∃ resp ∈ st.ocsp, ocspStatusWithDelegate issuer cert resp now = ocspStatusGood

/-- One link of a path. -/
def Certifies (st : TrustStore) (now : Instant) (p : TlsPath) (below : Nat)
    (cert issuer : List Int) : Prop :=
  ∃ c i, x509Parse cert = .ok c ∧ x509Parse issuer = .ok i ∧ Issued now p below c i ∧
    Unrevoked st now cert issuer

/-- Each certificate of `l` certifies the one before it, `cert` the first. -/
def IsPath (st : TrustStore) (now : Instant) (p : TlsPath) :
    Nat → List Int → List (List Int) → Prop
  | _, _, [] => True
  | n, cert, issuer :: l => Certifies st now p n cert issuer ∧ IsPath st now p (n + 1) issuer l

/-! ## The checks say what they should -/

section Checks

omit [Verifier]

theorem certSanMatch_names {c : Cert} {host : List Int} (h : certSanMatch c host = some true) :
    NamesHost c host := by
  have hdns : ∀ names, sanAnyDns host names = some true →
      ∃ n ∈ names, dnsMatch host n = some true := by
    intro names
    induction names with
    | nil =>
      intro h
      cases h
    | cons n names ih =>
      intro h
      rw [sanAnyDns] at h
      cases hm : dnsMatch host n with
      | none =>
        rw [hm] at h
        cases h
      | some hit =>
        cases hit with
        | true => exact ⟨n, List.mem_cons_self, hm⟩
        | false =>
          rw [hm] at h
          obtain ⟨n', hn', hm'⟩ := ih h
          exact ⟨n', List.mem_cons_of_mem n hn', hm'⟩
  unfold certSanMatch at h
  cases hd : sanAnyDns host (certSan c 130) with
  | none =>
    rw [hd] at h
    cases h
  | some hit =>
    cases hit with
    | true => exact .inl (hdns _ hd)
    | false =>
      rw [hd] at h
      simp only [Option.some.injEq, List.any_eq_true] at h
      exact .inr h

theorem certCritOk_known {c : Cert} (h : certCritOk c = true) : CriticalKnown c := by
  have hscan : ∀ es, certCritScan c.der es = true → ∀ e ∈ es, isCritical c.der e = true →
      tlsCritKnown (derOid c.der (derChild c.der e)) = true := by
    intro es
    induction es with
    | nil =>
      intro _ e he
      cases he
    | cons e' es ih =>
      intro h e he hcrit
      rw [certCritScan] at h
      by_cases hok : (!e'.ok) = true
      · rw [if_pos hok] at h
        cases h
      rw [if_neg hok] at h
      by_cases hbad : (isCritical c.der e' && !tlsCritKnown (derOid c.der (derChild c.der e'))) = true
      · unfold isCritical at hbad
        rw [if_pos hbad] at h
        cases h
      · have hrest := hbad
        unfold isCritical at hrest
        rw [if_neg hrest] at h
        rcases List.mem_cons.1 he with rfl | he
        · rw [hcrit, Bool.true_and, Bool.not_eq_true, Bool.not_eq_false'] at hbad
          exact hbad
        · exact ih h e he hcrit
  intro hexts
  unfold certCritOk at h
  rw [if_neg (by rw [hexts]; exact Bool.false_ne_true)] at h
  exact hscan _ h

theorem certServerAuth_may {c : Cert} (h : certServerAuth c = true) : MayServe c := by
  unfold certServerAuth at h
  by_cases hext : (!(certExt c oidExtKeyUsage).ok) = true
  · rw [Bool.not_eq_true'] at hext
    exact .inl hext
  · rw [if_neg hext, Bool.or_eq_true] at h
    exact .inr h

/-- A name form with permitted subtrees is in one, and in no excluded one. -/
theorem allowed_of {α : Type} {within : α → α → Bool} {permit exclude : List α} {n : α}
    (h : (if permit.length > 0 ∧ !permit.any (within n) then false
      else !exclude.any (within n)) = true) :
    (permit = [] ∨ ∃ base ∈ permit, within n base = true) ∧
      ∀ base ∈ exclude, within n base = false := by
  by_cases hp : permit.length > 0 ∧ (!permit.any (within n)) = true
  · rw [if_pos hp] at h
    cases h
  rw [if_neg hp, Bool.not_eq_true', List.any_eq_false] at h
  refine ⟨?_, fun base hb => Bool.eq_false_iff.2 (h base hb)⟩
  by_cases hnil : permit = []
  · exact .inl hnil
  · right
    by_contra hno
    apply hp
    refine ⟨List.length_pos_iff.2 hnil, ?_⟩
    rw [Bool.not_eq_true', List.any_eq_false]
    intro base hb hw
    exact hno ⟨base, hb, hw⟩

theorem ncAdmits_admits {k : NameCons} {p : TlsPath} (h : ncAdmits k p.leaf p.host = true) :
    Admits k p := by
  unfold ncAdmits at h
  by_cases hok : (!k.ok) = true
  · rw [if_pos hok] at h
    cases h
  rw [if_neg hok] at h
  by_cases hall : (!(certSan p.leaf 130).all (ncDnsOk k) || !(certSan p.leaf 135).all (ncIpOk k)) =
      true
  · rw [if_pos hall] at h
    cases h
  rw [if_neg hall] at h
  rw [Bool.or_eq_true, not_or, Bool.not_eq_true', Bool.not_eq_true', Bool.not_eq_false,
    Bool.not_eq_false, List.all_eq_true, List.all_eq_true] at hall
  refine ⟨?_, fun n hn => allowed_of (hall.1 n hn), fun a ha => allowed_of (hall.2 a ha), ?_, ?_⟩
  · rw [Bool.not_eq_true', Bool.not_eq_false] at hok
    exact hok
  · intro hip
    rw [if_pos (List.length_pos_iff.2 hip)] at h
    exact allowed_of h
  · intro hip
    rw [if_neg (by rw [hip]; exact Nat.lt_irrefl 0)] at h
    exact allowed_of h

end Checks

variable {cert issuer : List Int} {now : Instant} {st : TrustStore}

theorem chainVerify_parts (h : chainVerify cert issuer now = true) :
    ∃ c i, x509Parse cert = .ok c ∧ x509Parse issuer = .ok i ∧ c.issuer = i.subject ∧
      certValidAt i now = true ∧ certIsCa i = true ∧ certKeyUsage i 5 = true ∧
      sigVerify c.signed.alg i.key c.signed.tbs c.signed.sig = true := by
  unfold chainVerify at h
  cases hc : x509Parse cert with
  | error e =>
    rw [hc] at h
    cases h
  | ok c =>
    cases hi : x509Parse issuer with
    | error e =>
      rw [hc, hi] at h
      cases h
    | ok i =>
      rw [hc, hi] at h
      simp only [chainVerifyParsed] at h
      split_ifs at h with hname hvalid hca hku
      rw [Bool.or_eq_true, not_or, Bool.not_eq_true', Bool.not_eq_true', Bool.not_eq_false,
        Bool.not_eq_false] at hvalid
      rw [Bool.not_eq_true', Bool.not_eq_false] at hca hku
      exact ⟨c, i, rfl, rfl, not_not.1 hname, hvalid.2, hca, hku, h⟩

/-- What the CRLs say, one by one. -/
theorem crlCheckAt_spec (cert issuer : List Int) (now : Instant) (crls : List (List Int)) :
    ((crlCheckAt cert issuer now crls).revoked = false →
      ∀ crl ∈ crls, crlUsable crl issuer now.seconds = true → crlRevokes crl cert = false) ∧
    ((crlCheckAt cert issuer now crls).covered = true →
      ∃ crl ∈ crls, crlUsable crl issuer now.seconds = true) := by
  induction crls with
  | nil =>
    refine ⟨fun _ crl hcrl => ?_, fun h => ?_⟩
    · cases hcrl
    · cases h
  | cons crl crls ih =>
    rw [crlCheckAt]
    simp only
    by_cases hrev : (crlUsable crl issuer now.seconds && crlRevokes crl cert) = true
    · rw [if_pos hrev]
      rw [Bool.and_eq_true] at hrev
      refine ⟨fun h => ?_, fun _ => ⟨crl, List.mem_cons_self, hrev.1⟩⟩
      cases h
    rw [if_neg hrev]
    have hhead : crlUsable crl issuer now.seconds = true → crlRevokes crl cert = false := by
      intro hu
      rw [hu, Bool.true_and, Bool.not_eq_true] at hrev
      exact hrev
    constructor
    · intro h crl' hmem
      have hrest : (crlCheckAt cert issuer now crls).revoked = false := by
        revert h
        split_ifs <;> exact id
      rcases List.mem_cons.1 hmem with rfl | hmem
      · exact hhead
      · exact ih.1 hrest crl' hmem
    · by_cases hu : (crlUsable crl issuer now.seconds &&
          !(crlCheckAt cert issuer now crls).covered) = true
      · rw [if_pos hu]
        rw [Bool.and_eq_true] at hu
        exact fun _ => ⟨crl, List.mem_cons_self, hu.1⟩
      · rw [if_neg hu]
        intro h
        obtain ⟨crl', hmem, hu'⟩ := ih.2 h
        exact ⟨crl', List.mem_cons_of_mem crl hmem, hu'⟩

theorem ocspAnyStatus_spec (cert issuer : List Int) (now : Instant) (want : Int)
    (pool : List (List Int)) :
    (ocspAnyStatus cert issuer now want pool = want ∧
      ∃ resp ∈ pool, ocspStatusWithDelegate issuer cert resp now = want) ∨
    (ocspAnyStatus cert issuer now want pool = ocspStatusNoAnswer ∧
      ∀ resp ∈ pool, ocspStatusWithDelegate issuer cert resp now ≠ want) := by
  induction pool with
  | nil => exact .inr ⟨rfl, fun resp h => by cases h⟩
  | cons resp pool ih =>
    rw [ocspAnyStatus]
    by_cases hgot : ocspStatusWithDelegate issuer cert resp now = want
    · rw [if_pos hgot]
      exact .inl ⟨hgot, resp, List.mem_cons_self, hgot⟩
    · rw [if_neg hgot]
      rcases ih with ⟨heq, resp', hmem, h⟩ | ⟨heq, hall⟩
      · exact .inl ⟨heq, resp', List.mem_cons_of_mem resp hmem, h⟩
      · refine .inr ⟨heq, fun resp' hmem => ?_⟩
        rcases List.mem_cons.1 hmem with rfl | hmem
        · exact hgot
        · exact hall resp' hmem

theorem issuerAccepts_unrevoked (h : issuerAccepts st cert issuer now = true) :
    chainVerify cert issuer now = true ∧ Unrevoked st now cert issuer := by
  unfold issuerAccepts at h
  simp only at h
  split_ifs at h with hv hr ho hc
  rw [Bool.not_eq_true', Bool.not_eq_false] at hv
  refine ⟨hv, ?_, ?_, ?_⟩
  · exact (crlCheckAt_spec cert issuer now st.crls).1 (Bool.eq_false_iff.2 hr)
  · rcases ocspAnyStatus_spec cert issuer now ocspStatusRevoked st.ocsp with ⟨heq, -⟩ | ⟨-, hall⟩
    · exfalso
      apply ho
      unfold ocspEvidence
      rw [if_pos heq]
      exact heq
    · exact hall
  · intro hreq
    by_cases hcov : (crlCheck st cert issuer now).covered = true
    · exact .inl ((crlCheckAt_spec cert issuer now st.crls).2 hcov)
    · right
      have hans : ocspEvidence st cert issuer now ≠ ocspStatusNoAnswer := by
        intro hno
        rw [Bool.not_eq_true] at hcov
        exact hc ⟨hreq, by rw [hcov]; rfl, hno⟩
      unfold ocspEvidence at ho hans
      by_cases hrev : ocspAnyStatus cert issuer now ocspStatusRevoked st.ocsp = ocspStatusRevoked
      · rw [if_pos hrev] at ho
        exact absurd hrev ho
      · rw [if_neg hrev] at hans
        rcases ocspAnyStatus_spec cert issuer now ocspStatusGood st.ocsp with ⟨-, hgood⟩ | ⟨heq, -⟩
        · exact hgood
        · exact absurd heq hans

/-- A link the walk takes is one. -/
theorem linkOk_certifies {p : TlsPath} {below : Nat}
    (h : linkOk st now p below cert issuer = true) : Certifies st now p below cert issuer := by
  unfold linkOk at h
  rw [Bool.and_eq_true] at h
  obtain ⟨hv, hrev⟩ := issuerAccepts_unrevoked h.1
  obtain ⟨c, i, hc, hi, hname, hcur, hca, hku, hsig⟩ := chainVerify_parts hv
  have hpath := h.2
  unfold issuerPathOk at hpath
  rw [hi] at hpath
  simp only [Bool.and_eq_true, Bool.or_eq_true, decide_eq_true_eq] at hpath
  refine ⟨c, i, hc, hi, ⟨hname.symm, hsig, hcur, hca, hku, hpath.1.2, ?_, ?_⟩, hrev⟩
  · exact ncAdmits_admits hpath.2
  · exact certCritOk_known hpath.1.1

/-! ## The walk -/

/-- The walk's ladder: who may stand above whom, and where the store is reached. -/
def ladder (st : TrustStore) (now : Instant) (p : TlsPath) : Ladder (List Int) :=
  ⟨linkOk st now p, storeReached st now p⟩

theorem chainToStore_eq (st : TrustStore) (now : Instant) (p : TlsPath) (depth : Nat)
    (cert : List Int) (pool : List (List Int)) (below : Nat) :
    chainToStore st now p depth cert pool below =
      climb (ladder st now p) depth cert pool below := by
  induction depth generalizing cert pool below with
  | zero => rfl
  | succ depth ih =>
    have hpick : pick (linkOk st now p below cert) pool = _ := pick_eq_findIdx? []
    have htop : (ladder st now p).top below cert = storeReached st now p below cert := rfl
    have hlink : (ladder st now p).link below cert = linkOk st now p below cert := rfl
    rw [chainToStore, climb, htop, hlink, hpick, findIssuerHit]
    cases pool.findIdx? (linkOk st now p below cert) with
    | none => rfl
    | some i =>
      simp only [Option.map_some]
      rw [ih]
      rfl

/-- A path length that covers more CAs covers fewer. -/
theorem ladder_lowers (st : TrustStore) (now : Instant) (p : TlsPath) :
    Lowers (ladder st now p) := by
  have hlink : ∀ n a b, linkOk st now p (n + 1) a b = true → linkOk st now p n a b = true := by
    intro n a b h
    unfold linkOk at h ⊢
    rw [Bool.and_eq_true] at h ⊢
    refine ⟨h.1, ?_⟩
    have hp := h.2
    unfold issuerPathOk at hp ⊢
    cases hi : x509Parse b with
    | error e =>
      rw [hi] at hp
      cases hp
    | ok i =>
      rw [hi] at hp
      simp only [Bool.and_eq_true, Bool.or_eq_true, decide_eq_true_eq] at hp ⊢
      refine ⟨⟨hp.1.1, ?_⟩, hp.2⟩
      omega
  refine ⟨hlink, ?_⟩
  intro n a h
  show storeReached st now p n a = true
  have h' : storeReached st now p (n + 1) a = true := h
  unfold storeReached at h' ⊢
  by_cases hs : trustStoreHas st a = true
  · rw [if_pos hs]
  · rw [if_neg hs] at h' ⊢
    unfold anyRootVerifies at h' ⊢
    rw [List.any_eq_true] at h' ⊢
    obtain ⟨r, hr, hl⟩ := h'
    exact ⟨r, hr, hlink n a r hl⟩

/-- From certificates that lead to the store, a path to a root. -/
theorem path_of_leads {p : TlsPath} {l : List (List Int)} {n : Nat}
    (h : Leads (ladder st now p) n cert l) :
    ∃ cs, IsPath st now p n cert cs ∧ (cert :: cs).getLastD [] ∈ st.roots ∧
      (cs = l ∨ ∃ r, cs = l ++ [r]) := by
  induction l generalizing n cert with
  | nil =>
    have h' : storeReached st now p n cert = true := h
    unfold storeReached at h'
    by_cases hs : trustStoreHas st cert = true
    · unfold trustStoreHas at hs
      rw [List.any_eq_true] at hs
      obtain ⟨r, hr, heq⟩ := hs
      refine ⟨[], trivial, ?_, .inl rfl⟩
      rw [← (beq_iff_eq.1 heq : r = cert)]
      exact hr
    · rw [if_neg hs] at h'
      unfold anyRootVerifies at h'
      rw [List.any_eq_true] at h'
      obtain ⟨r, hr, hl⟩ := h'
      exact ⟨[r], ⟨linkOk_certifies hl, trivial⟩, hr, .inr ⟨r, rfl⟩⟩
  | cons b l ih =>
    obtain ⟨cs, hpath, hroot, hcs⟩ := ih h.2
    refine ⟨b :: cs, ⟨linkOk_certifies h.1, hpath⟩, hroot, ?_⟩
    rcases hcs with rfl | ⟨r, rfl⟩
    · exact .inl rfl
    · exact .inr ⟨r, rfl⟩

/-! ## A chain to walk

Ed25519 certificates, current from 2025 to 2034; every signature asked about is genuine. -/

/-- The root `R`, which signed itself. -/
def rootDer : List Int :=
  [48, 129, 233, 48, 129, 156, 160, 3, 2, 1, 2, 2, 1, 1, 48, 5, 6, 3, 43, 101, 112, 48, 12, 49,
    10, 48, 8, 6, 3, 85, 4, 3, 19, 1, 82, 48, 30, 23, 13, 50, 53, 48, 49, 48, 49, 48, 48, 48, 48,
    48, 48, 90, 23, 13, 51, 53, 48, 49, 48, 49, 48, 48, 48, 48, 48, 48, 90, 48, 12, 49, 10, 48,
    8, 6, 3, 85, 4, 3, 19, 1, 82, 48, 42, 48, 5, 6, 3, 43, 101, 112, 3, 33, 0, 61, 41, 57, 209,
    85, 203, 128, 33, 85, 104, 20, 162, 170, 23, 179, 108, 50, 144, 32, 215, 78, 7, 12, 81, 71,
    56, 179, 155, 217, 132, 41, 237, 163, 35, 48, 33, 48, 15, 6, 3, 85, 29, 19, 1, 1, 255, 4, 5,
    48, 3, 1, 1, 255, 48, 14, 6, 3, 85, 29, 15, 1, 1, 255, 4, 4, 3, 2, 2, 4, 48, 5, 6, 3, 43,
    101, 112, 3, 65, 0, 198, 172, 173, 79, 218, 146, 159, 73, 122, 34, 200, 53, 135, 125, 231,
    69, 71, 158, 4, 142, 61, 192, 44, 68, 58, 209, 96, 113, 94, 142, 199, 68, 159, 202, 2, 252,
    223, 0, 206, 209, 136, 242, 233, 255, 229, 124, 116, 56, 73, 45, 14, 188, 91, 203, 107, 44,
    178, 63, 170, 194, 115, 71, 84, 15]

/-- The intermediate `N`, which `R` issued. -/
def interDer : List Int :=
  [48, 129, 233, 48, 129, 156, 160, 3, 2, 1, 2, 2, 1, 3, 48, 5, 6, 3, 43, 101, 112, 48, 12, 49,
    10, 48, 8, 6, 3, 85, 4, 3, 19, 1, 82, 48, 30, 23, 13, 50, 53, 48, 49, 48, 49, 48, 48, 48, 48,
    48, 48, 90, 23, 13, 51, 53, 48, 49, 48, 49, 48, 48, 48, 48, 48, 48, 90, 48, 12, 49, 10, 48,
    8, 6, 3, 85, 4, 3, 19, 1, 78, 48, 42, 48, 5, 6, 3, 43, 101, 112, 3, 33, 0, 186, 19, 135, 61,
    49, 59, 183, 84, 195, 84, 94, 179, 13, 172, 145, 134, 26, 252, 48, 85, 125, 18, 98, 215, 52,
    80, 114, 12, 237, 102, 215, 155, 163, 35, 48, 33, 48, 15, 6, 3, 85, 29, 19, 1, 1, 255, 4, 5,
    48, 3, 1, 1, 255, 48, 14, 6, 3, 85, 29, 15, 1, 1, 255, 4, 4, 3, 2, 2, 4, 48, 5, 6, 3, 43,
    101, 112, 3, 65, 0, 108, 182, 216, 32, 110, 144, 183, 103, 183, 110, 233, 157, 108, 8, 102,
    82, 227, 240, 83, 157, 71, 162, 72, 153, 5, 92, 198, 39, 141, 72, 177, 31, 176, 194, 225,
    111, 102, 210, 245, 111, 138, 100, 249, 134, 93, 206, 84, 233, 134, 253, 236, 28, 253, 21,
    23, 88, 248, 34, 22, 38, 17, 222, 132, 1]

/-- The same `N` under the same key, which a CA `M` of nobody's store issued. -/
def crossDer : List Int :=
  [48, 129, 233, 48, 129, 156, 160, 3, 2, 1, 2, 2, 1, 2, 48, 5, 6, 3, 43, 101, 112, 48, 12, 49,
    10, 48, 8, 6, 3, 85, 4, 3, 19, 1, 77, 48, 30, 23, 13, 50, 53, 48, 49, 48, 49, 48, 48, 48, 48,
    48, 48, 90, 23, 13, 51, 53, 48, 49, 48, 49, 48, 48, 48, 48, 48, 48, 90, 48, 12, 49, 10, 48,
    8, 6, 3, 85, 4, 3, 19, 1, 78, 48, 42, 48, 5, 6, 3, 43, 101, 112, 3, 33, 0, 186, 19, 135, 61,
    49, 59, 183, 84, 195, 84, 94, 179, 13, 172, 145, 134, 26, 252, 48, 85, 125, 18, 98, 215, 52,
    80, 114, 12, 237, 102, 215, 155, 163, 35, 48, 33, 48, 15, 6, 3, 85, 29, 19, 1, 1, 255, 4, 5,
    48, 3, 1, 1, 255, 48, 14, 6, 3, 85, 29, 15, 1, 1, 255, 4, 4, 3, 2, 2, 4, 48, 5, 6, 3, 43,
    101, 112, 3, 65, 0, 197, 114, 157, 199, 58, 97, 219, 240, 98, 88, 2, 220, 51, 235, 35, 100,
    126, 117, 214, 34, 181, 163, 31, 195, 129, 255, 83, 223, 33, 89, 152, 125, 106, 227, 28, 61,
    117, 0, 17, 62, 9, 56, 67, 156, 215, 194, 40, 100, 104, 131, 1, 48, 201, 44, 215, 168, 233,
    88, 240, 252, 99, 85, 178, 10]

/-- A server named `a.b`, which `N` issued. -/
def leafDer : List Int :=
  [48, 129, 216, 48, 129, 139, 160, 3, 2, 1, 2, 2, 1, 4, 48, 5, 6, 3, 43, 101, 112, 48, 12, 49,
    10, 48, 8, 6, 3, 85, 4, 3, 19, 1, 78, 48, 30, 23, 13, 50, 53, 48, 49, 48, 49, 48, 48, 48, 48,
    48, 48, 90, 23, 13, 51, 53, 48, 49, 48, 49, 48, 48, 48, 48, 48, 48, 90, 48, 12, 49, 10, 48,
    8, 6, 3, 85, 4, 3, 19, 1, 76, 48, 42, 48, 5, 6, 3, 43, 101, 112, 3, 33, 0, 55, 236, 180, 153,
    1, 199, 208, 46, 112, 97, 69, 126, 197, 43, 10, 44, 251, 216, 172, 66, 159, 150, 39, 111,
    176, 60, 247, 185, 228, 83, 24, 122, 163, 18, 48, 16, 48, 14, 6, 3, 85, 29, 17, 4, 7, 48, 5,
    130, 3, 97, 46, 98, 48, 5, 6, 3, 43, 101, 112, 3, 65, 0, 101, 111, 157, 10, 12, 149, 27, 64,
    91, 207, 37, 61, 120, 117, 152, 143, 106, 48, 248, 192, 193, 57, 24, 46, 64, 240, 2, 172,
    142, 57, 19, 198, 24, 243, 138, 162, 139, 85, 145, 168, 238, 196, 95, 28, 92, 249, 223, 67,
    85, 51, 145, 72, 30, 51, 60, 88, 50, 27, 220, 191, 11, 33, 204, 6]

/-- What signature checking answers about them. -/
abbrev genuine : Verifier := ⟨fun _ _ _ _ => true, fun _ _ => true, fun _ => []⟩

def rootOnly : TrustStore := ⟨[rootDer], [], [], false⟩

omit [Verifier] in
set_option maxRecDepth 100000 in
/-- The checks on the way from `leafDer` over `interDer`, and what the walk answers with the
intermediate alone, before its twin and behind it. -/
theorem genuine_walks :
    (match @x509Parse genuine leafDer with
      | .ok c => certValidAt c ⟨1760000000⟩ && certSanMatch c [97, 46, 98] == some true &&
          certCritOk c && certServerAuth c &&
          @linkOk genuine rootOnly ⟨1760000000⟩ ⟨c, [97, 46, 98]⟩ 0 leafDer interDer &&
          @storeReached genuine rootOnly ⟨1760000000⟩ ⟨c, [97, 46, 98]⟩ 1 interDer
      | .error _ => false) = true ∧
    @tlsServerTrusted genuine leafDer [interDer] [97, 46, 98] ⟨1760000000⟩ rootOnly =
      some true ∧
    @tlsServerTrusted genuine leafDer [interDer, crossDer] [97, 46, 98] ⟨1760000000⟩ rootOnly =
      some true ∧
    @tlsServerTrusted genuine leafDer [crossDer, interDer] [97, 46, 98] ⟨1760000000⟩ rootOnly =
      some false := by
  decide +kernel

end X509

/-!
## Which intermediates are sent, and in what order

The walk takes the first intermediate that accepts and stays with it.  Where a server's own
certificate passes and the certificates it sent hold a path to the store, it is trusted
exactly if the walk never stands before a choice whose first taker leads nowhere.

    trusted ↔ ServesHost ∧ NoDeadEnd          when a path is there   (surplus_trusted_iff)

A cross-signed twin of an intermediate, sent before it, is such a dead end
(`surplus_cross_first`).
-/

namespace X509

open Climb

/-- What the leaf itself is asked. -/
structure ServesHost (c : Cert) (host : List Int) (now : Instant) : Prop where
  valid : certValidAt c now = true
  named : certSanMatch c host = some true
  critOk : certCritOk c = true
  serverAuth : certServerAuth c = true

variable [Verifier]

/-- Certificates that lead to the store lead to one of its roots. -/
theorem roots_of_leads {st : TrustStore} {now : Instant} {p : TlsPath} {l : List (List Int)}
    {n : Nat} {cert : List Int} (h : Leads (ladder st now p) n cert l) : st.roots.length ≠ 0 := by
  obtain ⟨cs, -, hroot, -⟩ := path_of_leads h
  intro h0
  rw [List.eq_nil_of_length_eq_zero h0] at hroot
  cases hroot

theorem tlsServerTrusted_iff {leaf host : List Int} {inters : List (List Int)} {now : Instant}
    {st : TrustStore} {c : Cert} (hc : x509Parse leaf = .ok c) (hroots : st.roots.length ≠ 0) :
    tlsServerTrusted leaf inters host now st = some true ↔
      ServesHost c host now ∧
        climb (ladder st now ⟨c, host⟩) trustMaxDepth leaf inters 0 = true := by
  unfold tlsServerTrusted
  rw [if_neg hroots, hc]
  simp only
  constructor
  · intro h
    by_cases hv : (!certValidAt c now) = true
    · rw [if_pos hv] at h
      cases h
    rw [if_neg hv] at h
    rw [Bool.not_eq_true', Bool.not_eq_false] at hv
    rcases hm : certSanMatch c host with _ | _ | _
    · rw [hm] at h
      cases h
    · rw [hm] at h
      cases h
    · rw [hm] at h
      simp only [Option.some.injEq, Bool.and_eq_true] at h
      rw [chainToStore_eq] at h
      exact ⟨⟨hv, hm, h.1.1, h.1.2⟩, h.2⟩
  · rintro ⟨⟨hv, hm, hcrit, hauth⟩, hclimb⟩
    rw [hv, hm, hcrit, hauth, chainToStore_eq, hclimb]
    rfl

/-- Among more certificates than a path needs, in any order, the path is found exactly if
the walk meets no dead end. -/
theorem surplus_trusted_iff {leaf host : List Int} {pool sent : List (List Int)} {now : Instant}
    {st : TrustStore} {c : Cert} (hc : x509Parse leaf = .ok c)
    (hpath : Reaches (ladder st now ⟨c, host⟩) trustMaxDepth leaf pool 0)
    (hsent : pool.Subperm sent) :
    tlsServerTrusted leaf sent host now st = some true ↔
      ServesHost c host now ∧
        NoDeadEnd (ladder st now ⟨c, host⟩) trustMaxDepth leaf sent 0 := by
  have hroots : st.roots.length ≠ 0 := by
    obtain ⟨l, -, -, hleads⟩ := hpath
    exact roots_of_leads hleads
  rw [tlsServerTrusted_iff hc hroots, climb_iff (hpath.mono hsent)]

omit [Verifier] in
set_option maxRecDepth 100000 in
/-- `interDer` leads from `leafDer`, which serves `a.b`, to the store. -/
theorem leafDer_reaches :
    ∃ c, @x509Parse genuine leafDer = .ok c ∧ ServesHost c [97, 46, 98] ⟨1760000000⟩ ∧
      Reaches (@ladder genuine rootOnly ⟨1760000000⟩ ⟨c, [97, 46, 98]⟩) trustMaxDepth leafDer
        [interDer] 0 := by
  have h := genuine_walks.1
  cases hc : @x509Parse genuine leafDer with
  | error e =>
    rw [hc] at h
    cases h
  | ok c =>
    rw [hc] at h
    simp only [Bool.and_eq_true, beq_iff_eq] at h
    obtain ⟨⟨⟨⟨⟨hv, hm⟩, hcrit⟩, hauth⟩, hlink⟩, htop⟩ := h
    refine ⟨c, rfl, ⟨hv, hm, hcrit, hauth⟩, [interDer], ?_, List.Subperm.refl _, hlink, htop⟩
    unfold trustMaxDepth
    simp only [List.length_singleton]
    omega

omit [Verifier] in
theorem surplus_trusted_iff_cross :
    ∃ c, @x509Parse genuine leafDer = .ok c ∧
      (@tlsServerTrusted genuine leafDer [crossDer, interDer] [97, 46, 98] ⟨1760000000⟩ rootOnly =
          some true ↔
        ServesHost c [97, 46, 98] ⟨1760000000⟩ ∧
          NoDeadEnd (@ladder genuine rootOnly ⟨1760000000⟩ ⟨c, [97, 46, 98]⟩) trustMaxDepth leafDer
            [crossDer, interDer] 0) := by
  obtain ⟨c, hc, -, hpath⟩ := leafDer_reaches
  have hsent : [interDer].Subperm [crossDer, interDer] :=
    (List.sublist_cons_self crossDer [interDer]).subperm
  exact ⟨c, hc, @surplus_trusted_iff genuine leafDer [97, 46, 98] [interDer] [crossDer, interDer]
    ⟨1760000000⟩ rootOnly c hc hpath hsent⟩

omit [Verifier] in
/-- Sent alone the intermediate is enough; sent behind its cross-signed twin it is not. -/
theorem surplus_cross_first :
    (∃ c, @x509Parse genuine leafDer = .ok c ∧ ServesHost c [97, 46, 98] ⟨1760000000⟩ ∧
      Reaches (@ladder genuine rootOnly ⟨1760000000⟩ ⟨c, [97, 46, 98]⟩) trustMaxDepth leafDer
        [interDer] 0) ∧
    @tlsServerTrusted genuine leafDer [interDer] [97, 46, 98] ⟨1760000000⟩ rootOnly =
      some true ∧
    @tlsServerTrusted genuine leafDer [interDer, crossDer] [97, 46, 98] ⟨1760000000⟩ rootOnly =
      some true ∧
    @tlsServerTrusted genuine leafDer [crossDer, interDer] [97, 46, 98] ⟨1760000000⟩ rootOnly =
      some false :=
  ⟨leafDer_reaches, genuine_walks.2⟩

end X509
