import Mathlib.Data.Nat.Digits.Lemmas
import Resid.X509.Oid
import Resid.X509.Trust

/-!
# Certificate revocation lists as encoded

A list is its fields and its encoding the elements they make.  The reader goes from field to
field without knowing where the list ends, and takes the element after the one that follows
thisUpdate for the entries.

    Reaches w p (tlv tag e ++ rest) →
      derContent (tlv 48 w) p = e ∧ Reaches w (x509SkipTlv (tlv 48 w) p) rest
                                                            (Reaches.value, Reaches.skip)
    crlUsable c.encode issuer now → ∃ t, c.nextUpdate = some t     (nextUpdate_of_usable)
    c.revokedCertificates = some rs →
      crlRevokedSerials c.encode = rs.map serial              (crlRevokedSerials_present)
    crlUsable c.encode issuer now → (SerialsRead c ↔
      c.revokedCertificates.isSome ∨ c.crlExtensions.isSome)                (crl_read_iff)

A list without a nextUpdate is never usable: what follows thisUpdate then has an octet near
its front that is no digit.
-/

namespace X509

open Runtime

/-! ## Encoding -/

/-- A length: one octet below 128, else the number of its octets and they. -/
def lenOctets (n : Nat) : List Int :=
  if n < 128 then [(n : Int)] else ((128 + (magnitude n).length : Nat) : Int) :: magnitude n

/-- An element of the given tag and content. -/
def tlv (tag : Int) (content : List Int) : List Int :=
  tag :: (lenOctets content.length ++ content)

/-- An algorithm: its identifier's content and its parameters as encoded. -/
structure AlgorithmIdentifier where
  oid : List Int
  params : List Int

structure Time where
  generalized : Bool
  text : List Int

structure RevokedCertificate where
  serial : List Int
  date : Time
  /-- The entry's extensions as encoded, nothing when there are none. -/
  extensions : List Int

/-- An extension: its identifier's content and what follows as encoded. -/
structure Extension where
  oid : List Int
  rest : List Int

structure CertificateList where
  version : Option (List Int)
  signature : AlgorithmIdentifier
  issuer : List Int
  thisUpdate : Time
  nextUpdate : Option Time
  revokedCertificates : Option (List RevokedCertificate)
  crlExtensions : Option (List Extension)
  signatureAlgorithm : AlgorithmIdentifier
  signatureValue : List Int

def AlgorithmIdentifier.encode (a : AlgorithmIdentifier) : List Int :=
  tlv 48 (tlv 6 a.oid ++ a.params)

def Time.encode (t : Time) : List Int := tlv (if t.generalized then 24 else 23) t.text

def RevokedCertificate.encode (r : RevokedCertificate) : List Int :=
  tlv 48 (tlv 2 r.serial ++ (r.date.encode ++ r.extensions))

def Extension.encode (e : Extension) : List Int := tlv 48 (tlv 6 e.oid ++ e.rest)

/-- An optional field. -/
def optional {α : Type} (encode : α → List Int) : Option α → List Int
  | none => []
  | some a => encode a

def encodeRevoked (rs : List RevokedCertificate) : List Int :=
  tlv 48 (rs.flatMap RevokedCertificate.encode)

def encodeExtensions (es : List Extension) : List Int :=
  tlv 160 (tlv 48 (es.flatMap Extension.encode))

/-- The fields after nextUpdate, and what follows the list. -/
def CertificateList.afterNext (c : CertificateList) : List Int :=
  optional encodeRevoked c.revokedCertificates ++ (optional encodeExtensions c.crlExtensions)

def CertificateList.afterThis (c : CertificateList) : List Int :=
  optional Time.encode c.nextUpdate ++ c.afterNext

def CertificateList.tbs (c : CertificateList) : List Int :=
  optional (tlv 2) c.version ++ (c.signature.encode ++ (tlv 48 c.issuer ++
    (c.thisUpdate.encode ++ c.afterThis)))

def CertificateList.trailer (c : CertificateList) : List Int :=
  c.signatureAlgorithm.encode ++ tlv 3 c.signatureValue

def CertificateList.encode (c : CertificateList) : List Int := tlv 48 (tlv 48 c.tbs ++ c.trailer)

/-- The serials of the entries, in order. -/
def CertificateList.serials (c : CertificateList) : List (List Int) :=
  (c.revokedCertificates.getD []).map RevokedCertificate.serial

/-! ## The lenient reader on an encoding -/

theorem derReadLenAcc_eq (bs : List Int) :
    ∀ acc, derReadLenAcc bs acc = acc * 256 ^ bs.length + number bs := by
  induction bs with
  | nil =>
    intro acc
    simp [derReadLenAcc, number, natOctets]
  | cons x bs ih =>
    intro acc
    have hnum : number (x :: bs) = number bs + 256 ^ bs.length * x.toNat := by
      rw [number, natOctets, List.map_cons, List.reverse_cons, Nat.ofDigits_append,
        Nat.ofDigits_singleton, List.length_reverse, List.length_map]
      rfl
    rw [derReadLenAcc, ih, hnum, List.length_cons]
    ring

theorem length_magnitude_le {n : Nat} : (magnitude n).length ≤ 4 ↔ n < 4294967296 := by
  rw [magnitude, List.length_map, List.length_reverse]
  exact Nat.digits_length_le_iff (by decide) n

theorem length_magnitude_pos {n : Nat} (h : 128 ≤ n) : 0 < (magnitude n).length := by
  rw [magnitude, List.length_map, List.length_reverse]
  exact List.length_pos_iff.2 (Nat.digits_ne_nil_iff_ne_zero.2 (by omega))

theorem length_lenOctets (n : Nat) :
    (lenOctets n).length = if n < 128 then 1 else (magnitude n).length + 1 := by
  unfold lenOctets
  split_ifs
  · rfl
  · rfl

theorem length_tlv (tag : Int) (c : List Int) :
    (tlv tag c).length = 1 + (lenOctets c.length).length + c.length := by
  rw [tlv, List.length_cons, List.length_append]
  omega

theorem at0_of_drop {d rest : List Int} {x : Int} {p : Nat} (h : d.drop p = x :: rest) :
    at0 d p = x := by
  have h0 := congrArg (·[0]?) h
  simp only [List.getElem?_drop, Nat.add_zero, List.getElem?_cons_zero] at h0
  rw [at0, List.getD_eq_getElem?_getD, h0, Option.getD_some]

theorem length_of_drop {d e : List Int} {p : Nat} (h : d.drop p = e) (hne : e ≠ []) :
    d.length = p + e.length := by
  have hlen := congrArg List.length h
  rw [List.length_drop] at hlen
  have hpos := List.length_pos_iff.2 hne
  omega

theorem drop_add_length {d e rest : List Int} {p : Nat} (h : d.drop p = e ++ rest) :
    d.drop (p + e.length) = rest := by
  rw [← List.drop_drop, h, List.drop_left]

theorem range_of_drop {d e rest : List Int} {p : Nat} (h : d.drop p = e ++ rest) :
    range d p (p + e.length) = e := by
  rw [range, List.drop_take, h, Nat.add_sub_cancel_left, List.take_left]

/-- The length at `p`, and how many octets it takes. -/
theorem derReadLen_of_drop {d rest : List Int} {p n : Nat} (h : d.drop p = lenOctets n ++ rest)
    (hn : n < 4294967296) : derReadLen d p = n ∧ derHdrLen d p = (lenOctets n).length := by
  unfold lenOctets at h
  rw [length_lenOctets]
  by_cases hsmall : n < 128
  · rw [if_pos hsmall] at h ⊢
    have hlen := length_of_drop h (by simp)
    have hat := at0_of_drop h
    rw [List.length_append, List.length_singleton] at hlen
    constructor
    · unfold derReadLen
      simp only [Int.toNat_natCast]
      rw [if_neg (by omega), hat, if_pos (by omega)]
    · unfold derHdrLen
      simp only [Int.toNat_natCast]
      rw [if_neg (by omega), hat, if_pos (by omega)]
      rfl
  · rw [if_neg hsmall] at h ⊢
    have hlen := length_of_drop h (by simp)
    have hat := at0_of_drop h
    have hle := length_magnitude_le.2 hn
    have hpos := length_magnitude_pos (show 128 ≤ n by omega)
    have htail : d.drop (p + 1) = magnitude n ++ rest := by
      rw [← List.drop_drop, h]
      rfl
    have hrange := range_of_drop htail
    rw [List.length_append, List.length_cons] at hlen
    constructor
    · unfold derReadLen
      simp only [Int.toNat_natCast]
      rw [if_neg (by omega), hat, if_neg (by omega), if_neg (by omega), if_neg (by omega),
        if_neg (by omega), show p + ((((128 + (magnitude n).length : Nat) : Int) - 128).toNat) + 1 =
          p + 1 + (magnitude n).length by omega, hrange, derReadLenAcc_eq, number_magnitude,
        Nat.zero_mul, Nat.zero_add]
    · unfold derHdrLen
      simp only [Int.toNat_natCast]
      rw [if_neg (by omega), hat, if_neg (by omega)]
      push_cast
      ring

/-- A longer length is none the lenient reader takes. -/
theorem derReadLen_too_long {d rest : List Int} {p n : Nat} (h : d.drop p = lenOctets n ++ rest)
    (hn : 4294967296 ≤ n) : derReadLen d p = -1 := by
  unfold lenOctets at h
  rw [if_neg (by omega)] at h
  have hat := at0_of_drop h
  have hle := mt (length_magnitude_le (n := n)).1 (by omega)
  unfold derReadLen
  simp only [Int.toNat_natCast]
  split_ifs
  · rfl
  · omega
  · rfl
  · rfl
  · rfl
  · omega

/-- An element stands at `p`, short enough for the lenient reader. -/
structure Stands (d : List Int) (p : Nat) (tag : Int) (c rest : List Int) : Prop where
  here : d.drop p = tlv tag c ++ rest
  short : c.length < 4294967296

section Element

variable {d : List Int} {p : Nat} {tag : Int} {c rest : List Int}

theorem Stands.lengthD (h : Stands d p tag c rest) :
    d.length = p + (1 + (lenOctets c.length).length + c.length) + rest.length := by
  have hlen := length_of_drop h.here (by simp [tlv])
  rw [List.length_append, length_tlv] at hlen
  omega

theorem Stands.read (h : Stands d p tag c rest) :
    derNext d p = ⟨tag, derClsOf tag, 1 + (lenOctets c.length).length, c.length⟩ := by
  have hlen := h.lengthD
  have hhere := h.here
  rw [tlv, List.cons_append, List.append_assoc] at hhere
  have hat := at0_of_drop hhere
  have htail : d.drop (p + 1) = lenOctets c.length ++ (c ++ rest) := by
    rw [← List.drop_drop, hhere]
    rfl
  obtain ⟨hread, hhdr⟩ := derReadLen_of_drop htail h.short
  unfold derNext
  simp only [Int.toNat_natCast]
  rw [show (p : Int) + 1 = ((p + 1 : Nat) : Int) by push_cast; rfl, hread, hhdr, hat,
    if_neg (by omega), if_neg (by omega), if_neg (by omega)]
  simp only [DerTlv.mk.injEq, true_and, and_true]
  omega

/-- Where the content starts. -/
def contentAt (p : Nat) (c : List Int) : Nat := p + (1 + (lenOctets c.length).length)

theorem Stands.content (h : Stands d p tag c rest) : d.drop (contentAt p c) = c ++ rest := by
  have hhere := h.here
  have hsplit : tlv tag c ++ rest = (tag :: lenOctets c.length) ++ (c ++ rest) := by
    simp [tlv, List.cons_append, List.append_assoc]
  rw [hsplit] at hhere
  have hdrop := drop_add_length hhere
  rw [contentAt, Nat.add_comm 1]
  exact hdrop

theorem Stands.past (h : Stands d p tag c rest) : d.drop (p + (tlv tag c).length) = rest :=
  drop_add_length h.here

theorem Stands.contentPos (h : Stands d p tag c rest) : derContentPos d p = contentAt p c := by
  unfold derContentPos contentAt
  rw [h.read]
  simp only
  rw [if_neg (by omega)]
  push_cast
  ring

theorem Stands.skip (h : Stands d p tag c rest) :
    x509SkipTlv d p = ((p + (tlv tag c).length : Nat) : Int) := by
  unfold x509SkipTlv
  rw [h.read]
  simp only
  rw [if_neg (by omega), length_tlv]
  push_cast
  ring

theorem Stands.value (h : Stands d p tag c rest) : derContent d p = c := by
  have hlen := h.lengthD
  have hrange := range_of_drop h.content
  unfold derContent derSliceSeeded
  rw [h.read]
  simp only
  rw [if_neg (by omega)]
  cases hc : c with
  | nil =>
    rw [if_pos (by simp)]
  | cons x xs =>
    rw [← hc]
    have hpos : 0 < c.length := by rw [hc]; simp
    rw [if_neg (by omega)]
    rw [contentAt] at hrange
    convert hrange using 2
    · omega
    · omega

end Element

/-! ## Positions inside a list -/

/-- Position `p` lies inside the element `tlv 48 w`, and `rest` follows from there. -/
def Reaches (w : List Int) (p : Int) (rest : List Int) : Prop :=
  ∃ n : Nat, p = n ∧ contentAt 0 w ≤ n ∧ (tlv 48 w).drop n = rest

section Inside

variable {w e rest : List Int} {p tag : Int} (hw : w.length < 4294967296)

include hw

theorem outer_stands : Stands (tlv 48 w) 0 48 w [] := ⟨by rw [List.append_nil, List.drop_zero], hw⟩

/-- What lies inside is shorter than the whole. -/
theorem Reaches.stands (h : Reaches w p (tlv tag e ++ rest)) :
    ∃ n : Nat, p = n ∧ contentAt 0 w ≤ n ∧ Stands (tlv 48 w) n tag e rest := by
  obtain ⟨n, rfl, hn, hdrop⟩ := h
  refine ⟨n, rfl, hn, hdrop, ?_⟩
  have hlen := length_of_drop hdrop (by simp [tlv])
  rw [List.length_append, length_tlv, length_tlv] at hlen
  unfold contentAt at hn
  omega

theorem Reaches.skip (h : Reaches w p (tlv tag e ++ rest)) :
    Reaches w (x509SkipTlv (tlv 48 w) p) rest := by
  obtain ⟨n, rfl, hn, hs⟩ := h.stands hw
  exact ⟨n + (tlv tag e).length, hs.skip, by omega, hs.past⟩

theorem Reaches.contentPos (h : Reaches w p (tlv tag e ++ rest)) :
    Reaches w (derContentPos (tlv 48 w) p) (e ++ rest) := by
  obtain ⟨n, rfl, hn, hs⟩ := h.stands hw
  refine ⟨contentAt n e, hs.contentPos, ?_, hs.content⟩
  unfold contentAt at hn ⊢
  omega

theorem Reaches.value (h : Reaches w p (tlv tag e ++ rest)) :
    derContent (tlv 48 w) p = e := by
  obtain ⟨n, rfl, -, hs⟩ := h.stands hw
  exact hs.value

theorem Reaches.read (h : Reaches w p (tlv tag e ++ rest)) :
    derNext (tlv 48 w) p = ⟨tag, derClsOf tag, 1 + (lenOctets e.length).length, e.length⟩ := by
  obtain ⟨n, rfl, -, hs⟩ := h.stands hw
  exact hs.read

/-- The content starts past the header. -/
theorem Reaches.header (h : Reaches w p (tlv tag e ++ rest)) :
    Reaches w (p + (derNext (tlv 48 w) p).hdrLen) (e ++ rest) := by
  have hc := h.contentPos hw
  unfold derContentPos at hc
  rw [h.read hw] at hc ⊢
  exact hc

theorem reaches_content : Reaches w (derContentPos (tlv 48 w) 0) w :=
  ⟨contentAt 0 w, (outer_stands hw).contentPos, le_rfl, by
    rw [(outer_stands hw).content, List.append_nil]⟩

omit hw in
theorem Reaches.nonneg (h : Reaches w p rest) : 0 ≤ p := by
  obtain ⟨n, rfl, -, -⟩ := h
  omega

theorem Reaches.step (h : Reaches w p (tlv tag e ++ rest)) :
    Reaches w (crlStep (tlv 48 w) p) rest := by
  have hp := h.nonneg
  rw [crlStep, if_neg (by omega)]
  exact h.skip hw

end Inside

/-! ## The fields of a list -/

def CertificateList.content (c : CertificateList) : List Int := tlv 48 c.tbs ++ c.trailer

section Fields

variable {c : CertificateList} (hw : c.content.length < 4294967296)

include hw

theorem body_reaches : Reaches c.content (crlBodyPos c.encode) (c.tbs ++ c.trailer) :=
  (reaches_content hw).contentPos hw

theorem sigalg_reaches : Reaches c.content (crlSigalgPos c.encode)
    (c.signature.encode ++ (tlv 48 c.issuer ++ (c.thisUpdate.encode ++
      (c.afterThis ++ c.trailer)))) := by
  have hbody := body_reaches hw
  unfold crlSigalgPos crlAfterVersion
  unfold CertificateList.tbs at hbody
  simp only [List.append_assoc] at hbody
  cases hv : c.version with
  | none =>
    rw [hv] at hbody
    have hnext : derNext c.encode (crlBodyPos c.encode) = _ := hbody.read hw
    simp only
    rw [hnext, if_neg (show ¬ ((_ : Nat) : Int) < 0 by omega),
      if_neg fun h => absurd h.2 (show (48 : Int) ≠ 2 by decide)]
    exact hbody
  | some v =>
    rw [hv] at hbody
    have hnext : derNext c.encode (crlBodyPos c.encode) = _ := hbody.read hw
    simp only
    rw [hnext, if_neg (show ¬ ((_ : Nat) : Int) < 0 by omega), if_pos ⟨rfl, rfl⟩]
    exact hbody.skip hw

theorem thisUpdate_reaches : Reaches c.content (crlThisUpdatePos c.encode)
    (c.thisUpdate.encode ++ (c.afterThis ++ c.trailer)) :=
  ((sigalg_reaches hw).step hw).step hw

theorem nextUpdate_reaches : Reaches c.content (crlNextUpdatePos c.encode)
    (c.afterThis ++ c.trailer) :=
  (thisUpdate_reaches hw).step hw

end Fields

/-! ## The entries -/

section Entries

variable {w rest : List Int} (hw : w.length < 4294967296)

include hw

theorem Reaches.valLen {e : List Int} {p tag : Int} (h : Reaches w p (tlv tag e ++ rest)) :
    (derNext (tlv 48 w) p).valLen = e.length := by
  rw [h.read hw]

theorem Reaches.valid {e : List Int} {p tag : Int} (h : Reaches w p (tlv tag e ++ rest)) :
    ¬ (derNext (tlv 48 w) p).valLen < 0 := by
  rw [h.valLen hw]
  omega

/-- The loop over the entries appends their serials. -/
theorem crlSerialsAcc_entries (rs : List RevokedCertificate) : ∀ (p : Int) (fuel : Nat)
    (acc : List (List Int)), rs.length < fuel →
    Reaches w p (rs.flatMap RevokedCertificate.encode ++ rest) →
    crlSerialsAcc (tlv 48 w) (derPositions (tlv 48 w)
        (p + (rs.flatMap RevokedCertificate.encode).length) fuel p) acc =
      acc ++ rs.map RevokedCertificate.serial := by
  induction rs with
  | nil =>
    intro p fuel acc hfuel h
    obtain ⟨fuel, rfl⟩ : ∃ m, fuel = m + 1 := ⟨fuel - 1, by omega⟩
    rw [derPositions, if_pos (by simp), crlSerialsAcc, List.map_nil, List.append_nil]
  | cons r rs ih =>
    intro p fuel acc hfuel h
    obtain ⟨fuel, rfl⟩ : ∃ m, fuel = m + 1 := ⟨fuel - 1, by omega⟩
    rw [List.flatMap_cons, List.append_assoc] at h
    have hlen : r.encode.length =
        1 + (lenOctets (tlv 2 r.serial ++ (r.date.encode ++ r.extensions)).length).length +
          (tlv 2 r.serial ++ (r.date.encode ++ r.extensions)).length := length_tlv _ _
    have hskip : x509SkipTlv (tlv 48 w) p = p + r.encode.length := by
      rw [x509SkipTlv, if_neg (h.valid hw), h.read hw, hlen]
      push_cast
      ring
    have hvalue : derContent (tlv 48 w) (p + (derNext (tlv 48 w) p).hdrLen) = r.serial := by
      have hinner := h.header hw
      rw [List.append_assoc] at hinner
      exact hinner.value hw
    have hnext := h.skip hw
    rw [List.length_cons] at hfuel
    rw [List.flatMap_cons, List.length_append, derPositions,
      if_neg (by push_cast; omega), if_neg (h.valid hw), crlSerialsAcc,
      if_neg (h.valid hw), hvalue, hskip]
    rw [hskip] at hnext
    have hrun := ih _ fuel (acc ++ [r.serial]) (by omega) hnext
    rw [show p + ((r.encode.length + (rs.flatMap RevokedCertificate.encode).length : Nat) : Int) =
      p + r.encode.length + (rs.flatMap RevokedCertificate.encode).length by push_cast; ring,
      hrun, List.append_assoc, List.map_cons, List.singleton_append]

omit hw in
theorem length_le_flatMap (rs : List RevokedCertificate) :
    rs.length ≤ (rs.flatMap RevokedCertificate.encode).length := by
  induction rs with
  | nil => exact Nat.zero_le _
  | cons r rs ih =>
    have hlen : 1 ≤ r.encode.length := by
      rw [RevokedCertificate.encode, length_tlv]
      omega
    rw [List.flatMap_cons, List.length_append, List.length_cons]
    omega

end Entries

theorem crlSerialsAcc_length (d : List Int) (ps : List Int) :
    ∀ acc, acc.length ≤ (crlSerialsAcc d ps acc).length := by
  induction ps with
  | nil =>
    intro acc
    exact le_rfl
  | cons p ps ih =>
    intro acc
    rw [crlSerialsAcc]
    split_ifs
    · exact le_rfl
    · have hle := ih (acc ++ [derContent d (p + (derNext d p).hdrLen)])
      rw [List.length_append] at hle
      omega

/-- A readable element before `stop` gives one serial at least. -/
theorem crlSerialsAcc_ne_nil {d : List Int} {p stop : Int} (fuel : Nat) (hp : p < stop)
    (hvalid : ¬ (derNext d p).valLen < 0) :
    crlSerialsAcc d (derPositions d stop (fuel + 1) p) [] ≠ [] := by
  rw [derPositions, if_neg (by omega), if_neg hvalid, crlSerialsAcc, if_neg hvalid]
  intro hnil
  have hle := crlSerialsAcc_length d (derPositions d stop fuel (x509SkipTlv d p))
    ([] ++ [derContent d (p + (derNext d p).hdrLen)])
  rw [hnil, List.nil_append, List.length_singleton, List.length_nil] at hle
  omega

/-! ## Which element is taken for the entries -/

section Fields

variable {c : CertificateList} (hw : c.content.length < 4294967296)

include hw

theorem revoked_reaches {t : Time} (ht : c.nextUpdate = some t) :
    Reaches c.content (x509SkipTlv c.encode (crlNextUpdatePos c.encode))
      (c.afterNext ++ c.trailer) := by
  have hnext := nextUpdate_reaches hw
  rw [CertificateList.afterThis, ht, List.append_assoc] at hnext
  exact hnext.skip hw

/-- The element after nextUpdate, when it is a SEQUENCE. -/
theorem crlRevokedPos_eq {t : Time} (ht : c.nextUpdate = some t) : crlRevokedPos c.encode =
    if derIsSeq c.encode (x509SkipTlv c.encode (crlNextUpdatePos c.encode)) 16 then
      x509SkipTlv c.encode (crlNextUpdatePos c.encode) else -1 := by
  have hp := (nextUpdate_reaches hw).nonneg
  have hq := (revoked_reaches hw ht).nonneg
  unfold crlRevokedPos
  rw [if_neg (by omega), if_neg (by omega)]

theorem derIsSeq_of_reaches {p : Int} {e rest : List Int}
    (h : Reaches c.content p (tlv 48 e ++ rest)) : derIsSeq c.encode p 16 = true := by
  have hread : derNext c.encode p = _ := h.read hw
  unfold derIsSeq
  rw [hread, if_neg (show ¬ ((e.length : Int) < 0) by omega)]
  show (derClsOf 48 == 0 && band 48 31 == 16) = true
  decide

theorem crlRevokedSerials_present {t : Time} {rs : List RevokedCertificate}
    (ht : c.nextUpdate = some t) (hr : c.revokedCertificates = some rs) :
    crlRevokedSerials c.encode = rs.map RevokedCertificate.serial := by
  have h := revoked_reaches hw ht
  rw [CertificateList.afterNext, hr, List.append_assoc] at h
  have hp := h.nonneg
  have hval : (derNext c.encode (x509SkipTlv c.encode (crlNextUpdatePos c.encode))).valLen = _ :=
    h.valLen hw
  have hhead := h.header hw
  have hfuel : rs.length < c.encode.length + 1 := by
    have hle := length_le_flatMap rs
    obtain ⟨n, -, -, hs⟩ := h.stands hw
    have hlen : c.encode.length = _ := hs.lengthD
    omega
  have hrun := crlSerialsAcc_entries hw rs _ _ [] hfuel hhead
  rw [List.nil_append] at hrun
  unfold crlRevokedSerials
  rw [crlRevokedPos_eq hw ht, derIsSeq_of_reaches hw h, if_pos rfl]
  simp only
  rw [if_neg (by omega), ← hrun, hval]
  rfl

theorem crlRevokedSerials_extensions {t : Time} {es : List Extension}
    (ht : c.nextUpdate = some t) (hr : c.revokedCertificates = none)
    (he : c.crlExtensions = some es) : crlRevokedSerials c.encode = [] := by
  have h := revoked_reaches hw ht
  rw [CertificateList.afterNext, hr, he, List.append_assoc] at h
  have hread : derNext c.encode (x509SkipTlv c.encode (crlNextUpdatePos c.encode)) = _ :=
    Reaches.read hw h
  have hseq : derIsSeq c.encode (x509SkipTlv c.encode (crlNextUpdatePos c.encode)) 16 = false := by
    unfold derIsSeq
    rw [hread]
    simp [derClsOf]
  unfold crlRevokedSerials
  rw [crlRevokedPos_eq hw ht, hseq]
  rfl

/-- With neither field there, the signature algorithm is read as a list of entries. -/
theorem crlRevokedSerials_absent {t : Time} (ht : c.nextUpdate = some t)
    (hr : c.revokedCertificates = none) (he : c.crlExtensions = none) :
    crlRevokedSerials c.encode ≠ [] := by
  have h := revoked_reaches hw ht
  rw [CertificateList.afterNext, hr, he] at h
  have hp := h.nonneg
  have hval : (derNext c.encode (x509SkipTlv c.encode (crlNextUpdatePos c.encode))).valLen = _ :=
    Reaches.valLen hw h
  have hhead : Reaches c.content (x509SkipTlv c.encode (crlNextUpdatePos c.encode) +
      (derNext c.encode (x509SkipTlv c.encode (crlNextUpdatePos c.encode))).hdrLen) _ :=
    Reaches.header hw h
  rw [List.append_assoc] at hhead
  have hvalid := Reaches.valid hw hhead
  have hpos : 0 < (tlv 6 c.signatureAlgorithm.oid ++ c.signatureAlgorithm.params).length := by
    rw [List.length_append, length_tlv]
    omega
  unfold crlRevokedSerials
  rw [crlRevokedPos_eq hw ht, derIsSeq_of_reaches hw h, if_pos rfl]
  rw [if_neg (by omega)]
  exact crlSerialsAcc_ne_nil _ (by rw [hval]; omega) hvalid

end Fields

/-! ## What is read as a time -/

theorem timeDigits_of_mem {s : Str} {c : Char} (hc : c ∈ s)
    (hdigit : ¬ (48 ≤ c.toNat ∧ c.toNat ≤ 57)) : ∀ acc, timeDigits s acc = -1 := by
  induction s with
  | nil => cases hc
  | cons x s ih =>
    intro acc
    rw [timeDigits]
    split_ifs with hx
    · rfl
    · refine ih ?_ _
      rcases List.mem_cons.1 hc with rfl | hmem
      · omega
      · exact hmem

theorem mem_strSlice {s : Str} {c : Char} {i a b : Nat} (hc : s[i]? = some c) (ha : a ≤ i)
    (hb : i < b) : c ∈ strSlice s a b := by
  refine List.mem_of_getElem? (i := i - a) ?_
  rw [strSlice, List.getElem?_take_of_lt (by omega), List.getElem?_drop,
    Nat.add_sub_cancel' ha, hc]

/-- All parts of a time are written in digits. -/
theorem x509TimeToUnix_parts {s : Str} (h : x509TimeToUnix s ≠ -1) :
    12 < strLen s ∧ ∃ p, (p = 2 ∨ p = 4) ∧ timeDigits (strSlice s 0 p) 0 ≠ -1 ∧
      timeDigits (strSlice s p (p + 2)) 0 ≠ -1 ∧
      timeDigits (strSlice s (p + 2) (p + 4)) 0 ≠ -1 ∧
      timeDigits (strSlice s (p + 4) (p + 6)) 0 ≠ -1 ∧
      timeDigits (strSlice s (p + 6) (p + 8)) 0 ≠ -1 ∧
      timeDigits (strSlice s (p + 8) (p + 10)) 0 ≠ -1 := by
  unfold x509TimeToUnix at h
  simp only at h
  by_cases hlen : strLen s ≠ 13 ∧ strLen s ≠ 15
  · rw [if_pos hlen] at h
    exact absurd rfl h
  have htwo : (if (strLen s == 13) = true then 2 else 4) = 2 ∨
      (if (strLen s == 13) = true then 2 else 4) = 4 := by
    split_ifs
    · exact .inl rfl
    · exact .inr rfl
  generalize (if (strLen s == 13) = true then 2 else 4) = p at h htwo
  refine ⟨by omega, p, htwo, ?_⟩
  all_goals first
    | exact absurd rfl h
    | omega

theorem x509TimeToUnix_digit {s : Str} (h : x509TimeToUnix s ≠ -1) {i : Nat} {c : Char}
    (hi : i < 12) (hc : s[i]? = some c) : 48 ≤ c.toNat ∧ c.toNat ≤ 57 := by
  by_contra hdigit
  obtain ⟨-, p, hp, h0, h1, h2, h3, h4, h5⟩ := x509TimeToUnix_parts h
  have hbad : ∀ a b, a ≤ i → i < b → timeDigits (strSlice s a b) 0 = -1 :=
    fun a b ha hb => timeDigits_of_mem (mem_strSlice hc ha hb) hdigit 0
  rcases Nat.lt_or_ge i p with hlt | hge
  · exact h0 (hbad _ _ (Nat.zero_le i) hlt)
  rcases Nat.lt_or_ge i (p + 2) with hlt | hge
  · exact h1 (hbad _ _ (by omega) hlt)
  rcases Nat.lt_or_ge i (p + 4) with hlt | hge
  · exact h2 (hbad _ _ hge hlt)
  rcases Nat.lt_or_ge i (p + 6) with hlt | hge
  · exact h3 (hbad _ _ hge hlt)
  rcases Nat.lt_or_ge i (p + 8) with hlt | hge
  · exact h4 (hbad _ _ hge hlt)
  · exact h5 (hbad _ _ hge (by omega))

theorem strFromCode_eq {x : Int} (hx : 1 ≤ x ∧ x < 256) :
    ∃ c : Char, strFromCode x = [c] ∧ (c.toNat : Int) = x := by
  have hvalid : x.toNat.isValidChar := by
    omega
  have hnat : (Char.ofNat x.toNat).toNat = x.toNat := by
    rw [Char.ofNat, dif_pos hvalid]
    rfl
  have hcode : codeChar x = Char.ofNat x.toNat := by
    rw [codeChar, if_neg (by omega)]
  refine ⟨Char.ofNat x.toNat, ?_, by omega⟩
  rw [strFromCode, hcode]
  refine finishText_of_not_mem ?_
  rw [List.mem_singleton]
  intro h0
  have hz := congrArg Char.toNat h0
  rw [hnat] at hz
  change 0 = x.toNat at hz
  omega

theorem length_derStrAcc_le (c : List Int) : (derStrAcc c).length ≤ c.length := by
  induction c with
  | nil => exact le_rfl
  | cons x c ih =>
    have hone : (strFromCode x).length ≤ 1 := by
      have hle := (List.takeWhile_sublist (l := [codeChar x]) (· != Char.ofNat 0)).length_le
      exact hle
    rw [derStrAcc] at ih ⊢
    rw [List.flatMap_cons, List.length_append, List.length_cons]
    omega

/-- Near the front of a time only digits stand. -/
theorem digit_of_time {pre rest : List Int} {x : Int}
    (h : x509TimeToUnix (derStrAcc (pre ++ x :: rest)) ≠ -1) (hpre : pre.length < 12)
    (hx : 1 ≤ x ∧ x < 256) : 48 ≤ x ∧ x ≤ 57 := by
  obtain ⟨c, hc, hcode⟩ := strFromCode_eq hx
  have htext : derStrAcc (pre ++ x :: rest) = derStrAcc pre ++ c :: derStrAcc rest := by
    rw [derStrAcc, List.flatMap_append, List.flatMap_cons, hc]
    rfl
  have hle := length_derStrAcc_le pre
  have hat : (derStrAcc (pre ++ x :: rest))[(derStrAcc pre).length]? = some c := by
    rw [htext, List.getElem?_append_right le_rfl, Nat.sub_self, List.getElem?_cons_zero]
  have hdigit := x509TimeToUnix_digit h (by omega) hat
  omega

/-- An element inside, whose content starts with no digit, is none of a time's octets. -/
theorem not_time_of_element {pre e rest : List Int} {x : Int} (hpre : pre.length < 10)
    (hx : 1 ≤ x ∧ x < 48) (hlen : (x :: e).length < 4294967296) :
    x509TimeToUnix (derStrAcc (pre ++ (tlv 48 (x :: e) ++ rest))) = -1 := by
  by_contra h
  by_cases hsmall : (x :: e).length < 128
  · have hsplit : pre ++ (tlv 48 (x :: e) ++ rest) =
        (pre ++ [48, ((x :: e).length : Int)]) ++ x :: (e ++ rest) := by
      rw [tlv, lenOctets, if_pos hsmall]
      simp
    rw [hsplit] at h
    have hdigit := digit_of_time h (by rw [List.length_append]; exact Nat.add_lt_add_right hpre 2)
      (by omega)
    omega
  · have hle := length_magnitude_le.2 hlen
    have hsplit : pre ++ (tlv 48 (x :: e) ++ rest) =
        (pre ++ [48]) ++ ((128 + (magnitude (x :: e).length).length : Nat) : Int) ::
          (magnitude (x :: e).length ++ (x :: e) ++ rest) := by
      rw [tlv, lenOctets, if_neg hsmall]
      simp
    rw [hsplit] at h
    have hdigit := digit_of_time h (by rw [List.length_append, List.length_singleton]; omega)
      (by omega)
    omega

theorem not_time_of_short {c : List Int} (h : c.length ≤ 12) :
    x509TimeToUnix (derStrAcc c) = -1 := by
  by_contra htime
  have hlong := (x509TimeToUnix_parts htime).1
  have hle := length_derStrAcc_le c
  unfold strLen at hlong
  omega

/-! ## What a usable list has -/

/-- A list too long for the lenient reader has no issuer to compare. -/
theorem crlIssuerPos_too_long {w : List Int} (hw : 4294967296 ≤ w.length) :
    crlIssuerPos (tlv 48 w) = -1 := by
  have htail : (tlv 48 w).drop 1 = lenOctets w.length ++ w := rfl
  have hread : derReadLen (tlv 48 w) (0 + 1) = -1 := derReadLen_too_long htail hw
  have hlen := length_tlv 48 w
  have hcontent : derContentPos (tlv 48 w) 0 = -1 := by
    have hnext : derNext (tlv 48 w) 0 = ⟨at0 (tlv 48 w) 0, derClsOf (at0 (tlv 48 w) 0), 0, -1⟩ := by
      rw [derNext, if_neg (by omega), hread]
      rfl
    rw [derContentPos, hnext]
    rfl
  have hnone : derNext (tlv 48 w) (-1) = ⟨0, 0, 0, -1⟩ := by
    unfold derNext
    rw [if_pos (by omega)]
  have hbody : crlBodyPos (tlv 48 w) = -1 := by
    rw [crlBodyPos, crlTbsPos, hcontent, derContentPos, hnone]
    rfl
  rw [crlIssuerPos, crlSigalgPos, crlAfterVersion, hbody, hnone]
  rfl

/-- What may follow an absent nextUpdate: entries, extensions, or the signature algorithm. -/
theorem afterNext_not_time {c : CertificateList} (hw : c.content.length < 4294967296) {p : Int}
    (h : Reaches c.content p (c.afterNext ++ c.trailer)) :
    x509TimeToUnix (derStrValue c.encode p) = -1 := by
  have hvalue {tag : Int} {e rest : List Int} (he : Reaches c.content p (tlv tag e ++ rest)) :
      derStrValue c.encode p = derStrAcc e ∧ e.length < 4294967296 := by
    obtain ⟨n, -, -, hs⟩ := he.stands hw
    exact ⟨congrArg derStrAcc (he.value hw), hs.short⟩
  rw [CertificateList.afterNext, List.append_assoc] at h
  cases hr : c.revokedCertificates with
  | some rs =>
    rw [hr] at h
    obtain ⟨htext, hshort⟩ := hvalue h
    rw [htext]
    cases rs with
    | nil => exact not_time_of_short (Nat.zero_le _)
    | cons r rs =>
      rw [List.flatMap_cons, RevokedCertificate.encode, List.length_append, length_tlv] at hshort
      exact @not_time_of_element [] _ _ 2 (Nat.zero_lt_succ _) (by decide)
        (show (tlv 2 r.serial ++ (r.date.encode ++ r.extensions)).length < _ by omega)
  | none =>
    rw [hr] at h
    cases he : c.crlExtensions with
    | some es =>
      rw [he] at h
      obtain ⟨htext, hshort⟩ := hvalue h
      rw [htext]
      cases es with
      | nil => exact not_time_of_short (by decide)
      | cons e es =>
        rw [List.flatMap_cons] at hshort ⊢
        generalize es.flatMap Extension.encode = more at hshort ⊢
        have hhead : tlv 6 e.oid ++ e.rest = 6 :: (lenOctets e.oid.length ++ e.oid ++ e.rest) := rfl
        have hsplit : tlv 48 (e.encode ++ more) = (48 :: lenOctets (e.encode ++ more).length) ++
            (tlv 48 (tlv 6 e.oid ++ e.rest) ++ more) := rfl
        rw [length_tlv] at hshort
        have hle := length_magnitude_le.2
          (show (e.encode ++ more).length < 4294967296 by omega)
        have hpre : (48 :: lenOctets (e.encode ++ more).length).length < 10 := by
          rw [List.length_cons, length_lenOctets]
          split_ifs
          · omega
          · omega
        rw [List.length_append, Extension.encode, length_tlv, hhead] at hshort
        rw [hsplit, hhead]
        exact not_time_of_element hpre (by decide) (by omega)
    | none =>
      rw [he] at h
      obtain ⟨htext, -⟩ := hvalue h
      rw [htext]
      by_contra htime
      have hdigit : (48 : Int) ≤ 6 ∧ (6 : Int) ≤ 57 :=
        @digit_of_time [] _ 6 htime (Nat.zero_lt_succ _) (by decide)
      omega

section Usable

variable [Verifier]

theorem crlUsable_parts {crl issuer : List Int} {now : Int} (h : crlUsable crl issuer now = true) :
    0 ≤ crlIssuerPos crl ∧ x509TimeToUnix (derStrValue crl (crlNextUpdatePos crl)) ≠ -1 := by
  unfold crlUsable at h
  simp only at h
  split_ifs at h with hsig hip hname htu hthis hnow hnu hnext
  exact ⟨by omega, hnext⟩

theorem short_of_usable {c : CertificateList} {issuer : List Int} {now : Int}
    (h : crlUsable c.encode issuer now = true) : c.content.length < 4294967296 := by
  by_contra hlong
  have hpos := (crlUsable_parts h).1
  have hnone : crlIssuerPos c.encode = -1 := crlIssuerPos_too_long (not_lt.1 hlong)
  omega

/-- Only a list with a nextUpdate is usable: what follows thisUpdate otherwise is no time. -/
theorem nextUpdate_of_usable {c : CertificateList} {issuer : List Int} {now : Int}
    (h : crlUsable c.encode issuer now = true) : ∃ t, c.nextUpdate = some t := by
  have hw := short_of_usable h
  have hnext := nextUpdate_reaches hw
  cases ht : c.nextUpdate with
  | some t => exact ⟨t, rfl⟩
  | none =>
    rw [CertificateList.afterThis, ht] at hnext
    exact absurd (afterNext_not_time hw hnext) (crlUsable_parts h).2

end Usable

/-! ## What is read of a usable list -/

/-- The serials read are those of the entries, and a certificate is revoked exactly when its
serial is one of them. -/
def SerialsRead (c : CertificateList) : Prop :=
  crlRevokedSerials c.encode = c.serials ∧
    ∀ cert, crlRevokes c.encode cert = true ↔ x509SerialBytes cert ∈ c.serials

theorem readExactly_of_serials {c : CertificateList}
    (h : crlRevokedSerials c.encode = c.serials) : SerialsRead c := by
  refine ⟨h, ?_⟩
  intro cert
  rw [crlRevokes, h, List.any_eq_true]
  constructor
  · rintro ⟨serial, hmem, heq⟩
    rwa [beq_iff_eq.1 heq] at hmem
  · intro hmem
    exact ⟨_, hmem, beq_self_eq_true _⟩

/-- A usable list is read as written exactly when its entries or its extensions are there: with
neither, what stands where the entries are expected is the signature algorithm. -/
theorem crl_read_iff [Verifier] {c : CertificateList} {issuer : List Int} {now : Int}
    (h : crlUsable c.encode issuer now = true) :
    SerialsRead c ↔ c.revokedCertificates.isSome ∨ c.crlExtensions.isSome := by
  have hw := short_of_usable h
  obtain ⟨t, ht⟩ := nextUpdate_of_usable h
  cases hr : c.revokedCertificates with
  | some rs =>
    refine iff_of_true (readExactly_of_serials ?_) (.inl rfl)
    rw [crlRevokedSerials_present hw ht hr, CertificateList.serials, hr]
    rfl
  | none =>
    cases he : c.crlExtensions with
    | some es =>
      refine iff_of_true (readExactly_of_serials ?_) (.inr rfl)
      rw [crlRevokedSerials_extensions hw ht hr he, CertificateList.serials, hr]
      rfl
    | none =>
      refine iff_of_false ?_ (by simp)
      rintro ⟨hserials, -⟩
      refine crlRevokedSerials_absent hw ht hr he ?_
      rw [hserials, CertificateList.serials, hr]
      rfl

/-- A list of the root `R`, current from 2025 to 2034. -/
def rootCrl (revoked : Option (List RevokedCertificate)) : CertificateList where
  version := some [1]
  signature := ⟨[43, 101, 112], []⟩
  issuer := [49, 10, 48, 8, 6, 3, 85, 4, 3, 19, 1, 82]
  thisUpdate := ⟨false, [50, 53, 48, 49, 48, 49, 48, 48, 48, 48, 48, 48, 90]⟩
  nextUpdate := some ⟨false, [51, 53, 48, 49, 48, 49, 48, 48, 48, 48, 48, 48, 90]⟩
  revokedCertificates := revoked
  crlExtensions := none
  signatureAlgorithm := ⟨[43, 101, 112], []⟩
  signatureValue := 0 :: List.replicate 64 7

/-- The certificate of serial 4 is on the list. -/
def leafRevoked : RevokedCertificate :=
  ⟨[4], ⟨false, [50, 54, 48, 49, 48, 49, 48, 48, 48, 48, 48, 48, 90]⟩, []⟩

set_option maxRecDepth 100000 in
theorem rootCrl_usable :
    @crlUsable genuine (rootCrl (some [leafRevoked])).encode rootDer 1760000000 = true ∧
    @crlUsable genuine (rootCrl none).encode rootDer 1760000000 = true := by
  decide +kernel

theorem crl_read_iff_root :
    @crlUsable genuine (rootCrl (some [leafRevoked])).encode rootDer 1760000000 = true ∧
    (SerialsRead (rootCrl (some [leafRevoked])) ↔
      (rootCrl (some [leafRevoked])).revokedCertificates.isSome ∨
        (rootCrl (some [leafRevoked])).crlExtensions.isSome) :=
  ⟨rootCrl_usable.1, @crl_read_iff genuine _ rootDer 1760000000 rootCrl_usable.1⟩

/-- A list with neither field is usable, and lists a serial that it does not hold. -/
theorem rootCrl_phantom :
    @crlUsable genuine (rootCrl none).encode rootDer 1760000000 = true ∧
    (rootCrl none).serials = [] ∧ crlRevokedSerials (rootCrl none).encode ≠ [] := by
  have h := rootCrl_usable.2
  exact ⟨h, rfl, crlRevokedSerials_absent (@short_of_usable genuine _ rootDer 1760000000 h) rfl
    rfl rfl⟩

end X509
