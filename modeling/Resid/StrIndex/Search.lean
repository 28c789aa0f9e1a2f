import Resid.StrIndex.Slot

/-!
# Searching a string

The bytes are searched for the needle's rarest byte, the rest compared at each; the byte found
is turned into an index by a binary search of the checkpoints and a walk of at most sixteen code
points from there.

    findBytes h h.length nd finds the first occurrence                      (findBytes_spec)
    ckSearch off qb 0 hi is a checkpoint at or before qb                    (ckSearch_spec)
    cpWalk s (cpOff s i) qb i is the first code point at or after qb        (cpWalk_spec)
    strIndexOf s sl nd start = naiveIndexOf s nd start ↔ Clean s nd start   (strIndexOf_iff)

A needle that begins with a continuation byte may begin inside a code point of the text: the
walk then rounds its place up.  Any other needle is `Clean` in every text.
-/

namespace StrIndex

/-! ## Algorithm -/

/-- How common a byte is in text, from one to three. -/
def byteCommon (c : Nat) : Nat :=
  if (c ≥ 97 ∧ c ≤ 122) ∨ c = 32 ∨ c = 10 then 3
  else if (c ≥ 65 ∧ c ≤ 90) ∨ (c ≥ 48 ∧ c ≤ 57) then 2
  else 1

def rarest (nd : List UInt8) (k m r : Nat) : Nat :=
  if k ≥ m then r
  else
    let rarer := byteCommon (byteAt nd k) < byteCommon (byteAt nd r)
    rarest nd (k + 1) m (if rarer then k else r)
termination_by m - k

/-- The first byte `c` in the `n` bytes at `p`. -/
def memchr (h : List UInt8) (p c : Nat) : Nat → Option Nat
  | 0 => none
  | n + 1 => if byteAt h p = c then some p else memchr h (p + 1) c n

/-- Do the bytes at `p` equal the needle's? -/
def memcmp (h : List UInt8) (p : Nat) (nd : List UInt8) : Bool :=
  (h.drop p).take nd.length == nd

/-- The first occurrence in the `n` bytes at `p`. -/
def memmem (h : List UInt8) (p : Nat) : Nat → List UInt8 → Option Nat
  | 0, nd => if nd = [] then some p else none
  | n + 1, nd =>
    if n + 1 < nd.length then none
    else if memcmp h p nd then some p
    else memmem h (p + 1) n nd

theorem memchr_spec (h : List UInt8) (p c n : Nat) :
    match memchr h p c n with
    | some q => p ≤ q ∧ q < p + n ∧ byteAt h q = c ∧ ∀ j, p ≤ j → j < q → byteAt h j ≠ c
    | none => ∀ j, p ≤ j → j < p + n → byteAt h j ≠ c := by
  induction n generalizing p with
  | zero =>
    intro j hj hlt
    omega
  | succ n ih =>
    rw [memchr]
    by_cases hc : byteAt h p = c
    · rw [if_pos hc]
      refine ⟨Nat.le_refl p, by omega, hc, ?_⟩
      intro j hj hlt
      omega
    · rw [if_neg hc]
      have hrest := ih (p + 1)
      cases hm : memchr h (p + 1) c n with
      | none =>
        rw [hm] at hrest
        intro j hj hlt
        rcases Nat.eq_or_lt_of_le hj with rfl | hpj
        · exact hc
        · exact hrest j hpj (by omega)
      | some q =>
        rw [hm] at hrest
        obtain ⟨hlow, hhigh, hbyte, hbelow⟩ := hrest
        refine ⟨by omega, by omega, hbyte, ?_⟩
        intro j hj hlt
        rcases Nat.eq_or_lt_of_le hj with rfl | hpj
        · exact hc
        · exact hbelow j hpj hlt

variable {h nd s : List UInt8} {b i p q r : Nat}

theorem memchr_some {c n : Nat} (hm : memchr h p c n = some q) :
    p ≤ q ∧ q < p + n ∧ byteAt h q = c ∧ ∀ j, p ≤ j → j < q → byteAt h j ≠ c := by
  have hspec := memchr_spec h p c n
  rw [hm] at hspec
  exact hspec

def findFrom (h : List UInt8) (stop : Nat) (nd : List UInt8) (r p misses : Nat) : Option Nat :=
  let lim := stop - (nd.length - 1 - r)
  if p ≥ lim then none
  else
    match _hm : memchr h p (byteAt nd r) (lim - p) with
    | none => none
    | some hit =>
      let cand := hit - r
      if memcmp h cand nd then some cand
      else
        let p2 := hit + 1
        let ms := misses + 1
        if ms > 64 ∧ p2 < ms * 16 then memmem h (cand + 1) (stop - cand - 1) nd
        else findFrom h stop nd r p2 ms
termination_by stop - p
decreasing_by
  have hspec := memchr_some _hm
  omega

/-- The first occurrence of the needle in the `n` bytes of `h`. -/
def findBytes (h : List UInt8) (n : Nat) (nd : List UInt8) : Option Nat :=
  if nd.length = 0 then some 0
  else if nd.length > n then none
  else
    let r := rarest nd 1 nd.length 0
    findFrom h n nd r r 0

/-- The last checkpoint of `[lo, hi]` at or before byte `qb`. -/
def ckSearch (off : List Nat) (qb lo hi : Nat) : Nat :=
  if lo ≥ hi then lo
  else
    let mid := (lo + hi + 1) / 2
    if off.getD mid 0 ≤ qb then ckSearch off qb mid hi else ckSearch off qb lo (mid - 1)
termination_by hi - lo

def cpWalk (s : List UInt8) (p target idx : Nat) : Nat :=
  if p ≥ target then idx else cpWalk s (p + utf8LenAt s p) target (idx + 1)
termination_by target - p
decreasing_by
  have hpos := (utf8LenAt_bounds s p).1
  omega

def strIndexOf (text : List UInt8) (sl : Slot) (needle : List UInt8) (from0 : Int) : Int :=
  let start := if from0 < 0 then 0 else from0
  if start > sl.len then -1
  else
    let b := slotOff text sl start.toNat
    match findBytes (text.drop b) (sl.blen - b) needle with
    | none => -1
    | some q =>
      let qb := b + q
      match sl.off with
      | none => qb
      | some off =>
        let lo := ckSearch off qb 0 (sl.len.toNat >>> 4)
        cpWalk text (off.getD lo 0) qb (lo <<< 4)

/-! ## What a walk from the left returns -/

/-- The first code point from `start` on at which the needle begins, or -1. -/
def naiveIndexOf (s needle : List UInt8) (start : Int) : Int :=
  match (List.range ((chars s).length + 1)).find? fun j : Nat =>
    decide (start ≤ j) && needle.isPrefixOf ((chars s).drop j).flatten with
  | some j => j
  | none => -1

/-- The needle is at byte `q`. -/
def Occurs (h nd : List UInt8) (q : Nat) : Prop := q ≤ h.length ∧ nd <+: h.drop q

/-- `q` is the first place from `b` on where the needle is. -/
def FirstFrom (h nd : List UInt8) (b q : Nat) : Prop :=
  b ≤ q ∧ Occurs h nd q ∧ ∀ p, b ≤ p → p < q → ¬ Occurs h nd p

/-- The first code point that begins at byte `q` or after. -/
def RoundsUp (s : List UInt8) (q j : Nat) : Prop :=
  j ≤ (chars s).length ∧ q ≤ cpOff s j ∧ ∀ i < j, cpOff s i < q

/-- Where the needle's first bytes are, from code point `start` on, the needle is at the next
beginning of a code point too. -/
def Clean (s nd : List UInt8) (start : Int) : Prop :=
  ∀ q, FirstFrom s nd (cpOff s start.toNat) q → ∀ j, RoundsUp s q j → Occurs s nd (cpOff s j)

/-! ## The byte search -/

theorem occurs_iff : Occurs h nd q ↔ q + nd.length ≤ h.length ∧ memcmp h q nd = true := by
  unfold Occurs memcmp
  rw [List.prefix_iff_eq_take, beq_iff_eq]
  constructor
  · rintro ⟨hq, heq⟩
    have hlen := congrArg List.length heq
    rw [List.length_take, List.length_drop] at hlen
    exact ⟨by omega, heq.symm⟩
  · rintro ⟨hq, heq⟩
    exact ⟨by omega, heq.symm⟩

theorem Occurs.byteAt (ho : Occurs h nd q) (hr : r < nd.length) :
    StrIndex.byteAt h (q + r) = StrIndex.byteAt nd r := by
  obtain ⟨rest, hrest⟩ := ho.2
  rw [← byteAt_drop, ← hrest]
  unfold StrIndex.byteAt
  rw [List.getD_eq_getElem?_getD, List.getD_eq_getElem?_getD, List.getElem?_append_left hr]

theorem rarest_lt {k : Nat} (hr : r < nd.length) : rarest nd k nd.length r < nd.length := by
  induction hd : nd.length - k using Nat.strongRecOn generalizing k r with
  | ind d ih =>
    rw [rarest]
    split_ifs with hk
    · exact hr
    · simp only
      apply ih (nd.length - (k + 1)) (by omega) _ rfl
      split_ifs
      · omega
      · exact hr

/-- What a search for the first occurrence returns. -/
def Finds (h nd : List UInt8) : Option Nat → Prop
  | some q => Occurs h nd q ∧ ∀ p < q, ¬ Occurs h nd p
  | none => ∀ q, ¬ Occurs h nd q

theorem memmem_spec {n : Nat} (hn : p + n = h.length) (hpast : ∀ q, Occurs h nd q → p ≤ q) :
    Finds h nd (memmem h p n nd) := by
  induction n generalizing p with
  | zero =>
    rw [memmem]
    split_ifs with hnil
    · subst hnil
      exact ⟨⟨by omega, List.nil_prefix⟩, fun j hj ho => absurd (hpast j ho) (by omega)⟩
    · intro q ho
      have hlen := List.length_pos_iff.2 hnil
      have hle := (occurs_iff.1 ho).1
      have := hpast q ho
      omega
  | succ n ih =>
    rw [memmem]
    split_ifs with hshort hcmp
    · intro q ho
      have hle := (occurs_iff.1 ho).1
      have := hpast q ho
      omega
    · exact ⟨occurs_iff.2 ⟨by omega, hcmp⟩, fun j hj ho => absurd (hpast j ho) (by omega)⟩
    · apply ih (by omega)
      intro q ho
      rcases Nat.eq_or_lt_of_le (hpast q ho) with rfl | hlt
      · exact absurd (occurs_iff.1 ho).2 hcmp
      · exact hlt

/-- The candidates below `p - r` are no occurrences; the search goes on from there. -/
theorem findFrom_spec {misses : Nat} (hr : r < nd.length) (hrp : r ≤ p)
    (hpast : ∀ q, Occurs h nd q → p ≤ q + r) : Finds h nd (findFrom h h.length nd r p misses) := by
  induction hd : h.length - p using Nat.strongRecOn generalizing p misses with
  | ind d ih =>
    rw [findFrom]
    simp only
    have hroom : ∀ q, Occurs h nd q → q + r < h.length - (nd.length - 1 - r) := by
      intro q ho
      have hle := (occurs_iff.1 ho).1
      omega
    by_cases hlim : p ≥ h.length - (nd.length - 1 - r)
    · rw [if_pos hlim]
      intro q ho
      have h1 := hpast q ho
      have h2 := hroom q ho
      omega
    rw [if_neg hlim]
    have hchr := memchr_spec h p (byteAt nd r) (h.length - (nd.length - 1 - r) - p)
    split
    · rename_i hm
      rw [hm] at hchr
      intro q ho
      exact hchr (q + r) (hpast q ho) (by have := hroom q ho; omega) (ho.byteAt hr)
    · rename_i hit hm
      rw [hm] at hchr
      obtain ⟨hlow, hhigh, hbyte, hbelow⟩ := hchr
      -- no occurrence begins before the candidate
      have hcand : ∀ q, Occurs h nd q → hit - r ≤ q := by
        intro q ho
        by_contra hlt
        exact hbelow (q + r) (hpast q ho) (by omega) (ho.byteAt hr)
      split_ifs with hcmp hmiss
      · exact ⟨occurs_iff.2 ⟨by omega, hcmp⟩, fun j hj ho => absurd (hcand j ho) (by omega)⟩
      all_goals
        have hnext : ∀ q, Occurs h nd q → hit - r + 1 ≤ q := by
          intro q ho
          rcases Nat.eq_or_lt_of_le (hcand q ho) with rfl | hlt
          · exact absurd (occurs_iff.1 ho).2 hcmp
          · exact hlt
      · exact memmem_spec (by omega) hnext
      · refine ih (h.length - (hit + 1)) (by omega) (by omega) ?_ rfl
        intro q ho
        have := hnext q ho
        omega

theorem findBytes_spec (h nd : List UInt8) : Finds h nd (findBytes h h.length nd) := by
  unfold findBytes
  split_ifs with hnil hlong
  · rw [List.length_eq_zero_iff] at hnil
    subst hnil
    exact ⟨⟨Nat.zero_le _, List.nil_prefix⟩, fun j hj => absurd hj (Nat.not_lt_zero j)⟩
  · intro q ho
    have hle := (occurs_iff.1 ho).1
    omega
  · refine findFrom_spec (rarest_lt (by omega)) (Nat.le_refl _) ?_
    intro q ho
    omega

/-! ## From a byte to a code point -/

theorem ckSearch_spec {off : List Nat} {qb lo hi : Nat} (hlo : off.getD lo 0 ≤ qb)
    (hle : lo ≤ hi) :
    off.getD (ckSearch off qb lo hi) 0 ≤ qb ∧ ckSearch off qb lo hi ≤ hi := by
  induction hd : hi - lo using Nat.strongRecOn generalizing lo hi with
  | ind d ih =>
    rw [ckSearch]
    split_ifs with hge
    · exact ⟨hlo, hle⟩
    · simp only
      split_ifs with hmid
      · exact ih (hi - (lo + hi + 1) / 2) (by omega) hmid (by omega) rfl
      · have hleft := ih ((lo + hi + 1) / 2 - 1 - lo) (by omega) hlo (by omega) rfl
        exact ⟨hleft.1, by omega⟩

theorem cpWalk_spec (hi : i ≤ (chars s).length) (hq : q ≤ s.length)
    (hbelow : ∀ j < i, cpOff s j < q) : RoundsUp s q (cpWalk s (cpOff s i) q i) := by
  induction hd : (chars s).length - i generalizing i with
  | zero =>
    have hend : cpOff s i = s.length := cpOff_last (by omega)
    rw [cpWalk, if_pos (by omega)]
    exact ⟨hi, by omega, hbelow⟩
  | succ d ih =>
    rw [cpWalk]
    split_ifs with hge
    · exact ⟨hi, hge, hbelow⟩
    · rw [← cpOff_succ (by omega)]
      refine ih (by omega) ?_ (by omega)
      intro j hj
      rcases Nat.eq_or_lt_of_le (Nat.lt_succ_iff.1 hj) with rfl | hlt
      · omega
      · exact hbelow j hlt

/-- A byte string has one rounding. -/
theorem RoundsUp.unique {j : Nat} (hi : RoundsUp s q i) (hj : RoundsUp s q j) : i = j := by
  rcases Nat.lt_trichotomy i j with hlt | heq | hgt
  · have h1 := hi.2.1
    have h2 := hj.2.2 i hlt
    omega
  · exact heq
  · have h1 := hj.2.1
    have h2 := hi.2.2 j hgt
    omega

theorem roundsUp_cpOff (hi : i ≤ (chars s).length) : RoundsUp s (cpOff s i) i :=
  ⟨hi, Nat.le_refl _, fun _ hj => cpOff_strict hj (by omega)⟩

/-- The index the slot finds for a byte. -/
theorem slot_roundsUp {off : List Nat} (h : Checkpoints s off) (hq : q ≤ s.length) :
    let lo := ckSearch off q 0 ((chars s).length >>> 4)
    RoundsUp s q (cpWalk s (off.getD lo 0) q (lo <<< 4)) := by
  have hpoint : ∀ j, 16 * j ≤ (chars s).length → off.getD j 0 = cpOff s (16 * j) := by
    intro j hj
    rw [List.getD_eq_getElem?_getD, h j hj, Option.getD_some]
  rw [shiftRight_four]
  simp only
  obtain ⟨hat, hhi⟩ := @ckSearch_spec off q 0
    ((chars s).length / 16) (by rw [hpoint 0 (by omega)]; exact Nat.zero_le q) (Nat.zero_le _)
  obtain ⟨lo, hlo⟩ : ∃ lo, ckSearch off q 0 ((chars s).length / 16) = lo := ⟨_, rfl⟩
  rw [hlo] at hat hhi ⊢
  rw [hpoint lo (by omega)] at hat ⊢
  rw [Nat.shiftLeft_eq, show lo * 2 ^ 4 = 16 * lo by omega]
  refine cpWalk_spec (by omega) hq ?_
  intro j hj
  have hstrict := cpOff_strict hj (s := s) (by omega)
  omega

/-! ## The index of a needle -/

theorem occurs_drop (hb : b ≤ s.length) : Occurs (s.drop b) nd q ↔ Occurs s nd (b + q) := by
  unfold Occurs
  rw [List.length_drop, List.drop_drop]
  constructor
  · rintro ⟨hq, hpre⟩
    exact ⟨by omega, hpre⟩
  · rintro ⟨hq, hpre⟩
    exact ⟨by omega, hpre⟩

/-- What a search from byte `b` on returns. -/
theorem findBytes_from (s nd : List UInt8) (hb : b ≤ s.length) :
    match findBytes (s.drop b) (s.length - b) nd with
    | some q => FirstFrom s nd b (b + q)
    | none => ∀ q, ¬ FirstFrom s nd b q := by
  have hspec := findBytes_spec (s.drop b) nd
  rw [List.length_drop] at hspec
  cases hf : findBytes (s.drop b) (s.length - b) nd with
  | none =>
    rw [hf] at hspec
    rintro q ⟨hbq, ho, -⟩
    apply hspec (q - b)
    rw [occurs_drop hb, Nat.add_sub_cancel' hbq]
    exact ho
  | some q =>
    rw [hf] at hspec
    refine ⟨Nat.le_add_right b q, (occurs_drop hb).1 hspec.1, ?_⟩
    intro p hbp hp ho
    apply hspec.2 (p - b) (by omega)
    rw [occurs_drop hb, Nat.add_sub_cancel' hbp]
    exact ho

theorem FirstFrom.unique (hp : FirstFrom h nd b p) (hq : FirstFrom h nd b q) : p = q := by
  rcases Nat.lt_trichotomy p q with hlt | heq | hgt
  · exact absurd hp.2.1 (hq.2.2 p hp.1 hlt)
  · exact heq
  · exact absurd hq.2.1 (hp.2.2 q hq.1 hgt)

/-- What `str_index_of` returns, from any position. -/
theorem strIndexOf_spec {sl : Slot} (h : sl.Indexes s) (nd : List UInt8) (start : Int) :
    (strIndexOf s sl nd start = -1 ∧ ((chars s).length < start ∨
        ∀ q, ¬ FirstFrom s nd (cpOff s start.toNat) q)) ∨
      (start ≤ (chars s).length ∧ ∃ q j : Nat, strIndexOf s sl nd start = j ∧
        FirstFrom s nd (cpOff s start.toNat) q ∧ RoundsUp s q j) := by
  unfold strIndexOf
  simp only
  have hclamp : (if start < 0 then 0 else start) = (start.toNat : Int) := by
    split_ifs <;> omega
  rw [hclamp, h.len]
  by_cases hpast : (start.toNat : Int) > (chars s).length
  · rw [if_pos hpast]
    exact .inl ⟨rfl, .inl (by omega)⟩
  rw [if_neg hpast, Int.toNat_natCast, slotOff_eq h (by omega), h.blen]
  have hfind := findBytes_from s nd (cpOff_le s start.toNat)
  cases hf : findBytes (s.drop (cpOff s start.toNat)) (s.length - cpOff s start.toNat) nd with
  | none =>
    rw [hf] at hfind
    exact .inl ⟨rfl, .inr hfind⟩
  | some q =>
    rw [hf] at hfind
    have hle := hfind.2.1.1
    cases hoff : sl.off with
    | none =>
      refine .inr ⟨by omega, _, _, rfl, hfind, ?_⟩
      -- every byte begins a code point
      have hascii := h.plain hoff
      have hlen := length_ascii hascii
      have hround := roundsUp_cpOff (s := s) (i := cpOff s start.toNat + q) (by omega)
      rw [cpOff_ascii hascii (by omega)] at hround
      exact hround
    | some off =>
      refine .inr ⟨by omega, _, _, rfl, hfind, ?_⟩
      rw [Int.toNat_natCast]
      exact slot_roundsUp (h.off off hoff) hle

/-- What the walk returns. -/
theorem naiveIndexOf_spec (s nd : List UInt8) (start : Int) :
    (naiveIndexOf s nd start = -1 ∧
        ∀ j ≤ (chars s).length, start ≤ j → ¬ Occurs s nd (cpOff s j)) ∨
      ∃ j : Nat, naiveIndexOf s nd start = j ∧ j ≤ (chars s).length ∧ start ≤ j ∧
        Occurs s nd (cpOff s j) ∧ ∀ i < j, start ≤ i → ¬ Occurs s nd (cpOff s i) := by
  have hoccurs : ∀ j, nd.isPrefixOf ((chars s).drop j).flatten = true ↔ Occurs s nd (cpOff s j) := by
    intro j
    rw [List.isPrefixOf_iff_prefix, ← drop_cpOff]
    exact ⟨fun hpre => ⟨cpOff_le s j, hpre⟩, fun ho => ho.2⟩
  unfold naiveIndexOf
  cases hf : (List.range ((chars s).length + 1)).find? fun j : Nat =>
      decide (start ≤ j) && nd.isPrefixOf ((chars s).drop j).flatten with
  | none =>
    refine .inl ⟨rfl, ?_⟩
    intro j hj hstart ho
    rw [List.find?_range_eq_none] at hf
    have hno := hf j (by omega)
    rw [decide_eq_true hstart, (hoccurs j).2 ho] at hno
    cases hno
  | some j =>
    rw [List.find?_range_eq_some] at hf
    obtain ⟨hpred, hmem, hbelow⟩ := hf
    rw [Bool.and_eq_true, decide_eq_true_eq, hoccurs] at hpred
    rw [List.mem_range] at hmem
    refine .inr ⟨j, rfl, by omega, hpred.1, hpred.2, ?_⟩
    intro i hi hstart ho
    have hno := hbelow i hi
    rw [decide_eq_true hstart, (hoccurs i).2 ho] at hno
    cases hno

/-- Past the end there is nothing to find, or the empty needle. -/
theorem clean_past {start : Int} (h : (chars s).length < start) : Clean s nd start := by
  intro q hq j hj
  have hend : cpOff s start.toNat = s.length := cpOff_last (by omega)
  have hq' : q = s.length := by
    have h1 := hq.1
    have h2 := hq.2.1.1
    omega
  have hj' : cpOff s j = s.length := by
    have h1 := hj.2.1
    have h2 := cpOff_le s j
    omega
  rw [hj', ← hq']
  exact hq.2.1

/-- The search and the walk agree exactly where the needle's first place is clean. -/
theorem strIndexOf_iff {sl : Slot} (h : sl.Indexes s) (nd : List UInt8) (start : Int) :
    strIndexOf s sl nd start = naiveIndexOf s nd start ↔ Clean s nd start := by
  have hnaive := naiveIndexOf_spec s nd start
  rcases strIndexOf_spec h nd start with ⟨hcode, hnone⟩ | ⟨hstart, q, j, hcode, hfirst, hround⟩
  · -- no occurrence at all
    have hclean : Clean s nd start := by
      rcases hnone with hpast | hno
      · exact clean_past hpast
      · exact fun q hq => absurd hq (hno q)
    refine iff_of_true ?_ hclean
    rcases hnaive with ⟨hn, -⟩ | ⟨j, -, hj, hstart, ho, -⟩
    · rw [hcode, hn]
    · exfalso
      rcases hnone with hpast | hno
      · omega
      · obtain ⟨q, hq⟩ : ∃ q, FirstFrom s nd (cpOff s start.toNat) q := by
          have hex : ∃ q, cpOff s start.toNat ≤ q ∧ Occurs s nd q :=
            ⟨cpOff s j, cpOff_mono (by omega), ho⟩
          classical
          refine ⟨Nat.find hex, (Nat.find_spec hex).1, (Nat.find_spec hex).2, ?_⟩
          exact fun p hp hlt ho => Nat.find_min hex hlt ⟨hp, ho⟩
        exact hno q hq
  · rw [hcode]
    have hfrom : start ≤ j := by
      by_contra hlt
      have hlow := hfirst.1
      have hhigh := hround.2.1
      have hstrict := cpOff_strict (s := s) (i := j) (j := start.toNat) (by omega) (by omega)
      omega
    have hmin : ∀ i < j, start ≤ i → ¬ Occurs s nd (cpOff s i) := by
      intro i hi hs
      exact hfirst.2.2 _ (cpOff_mono (by omega)) (hround.2.2 i hi)
    have hiff : (j : Int) = naiveIndexOf s nd start ↔ Occurs s nd (cpOff s j) := by
      rcases hnaive with ⟨hn, hall⟩ | ⟨i, hn, hi, hs, ho, hbelow⟩
      · rw [hn]
        exact iff_of_false (by omega) (hall j hround.1 hfrom)
      · rw [hn]
        constructor
        · intro heq
          rw [Int.natCast_inj.1 heq]
          exact ho
        · intro hoj
          rcases Nat.lt_trichotomy i j with hlt | heq | hgt
          · exact absurd ho (hmin i hlt hs)
          · rw [heq]
          · exact absurd hoj (hbelow j hgt hfrom)
    rw [hiff]
    constructor
    · intro ho q' hq' j' hj'
      rw [hq'.unique hfirst] at hj'
      rw [hj'.unique hround]
      exact ho
    · exact fun hclean => hclean q hfirst j hround

end StrIndex
