import Mathlib.Data.Nat.Digits.Lemmas
import Mathlib.Tactic.Ring
import Resid.Lib.FixedWidth
import Resid.Lib.CheckedInt
import Resid.X509.Der

/-!
# The strict reader is exact

The strict reader once more, over the bytes of a list and any two 64-bit bounds: an index outside
the list or a sum outside 64 bits traps.  `derHeader tag len` is the one header of an element in
DER: a one-octet tag and the length in its shortest form.

    derAt b pos stop = some d ∧ d.ok ↔ an element with its header stands at pos   (derAt_iff)
    derAt b pos stop = none ↔ 0 ≤ pos and pos + 2 does not fit                    (derAt_none_iff)
    Enumerated b parent es → es stand in the content of parent, one after another
                                                                     (Enumerated.within)

## Algorithm

The octets of a long length are read over their number, the position beside it.  An enumeration
takes the first element of a parent and then the sibling of the last one taken.
-/

namespace X509.Exact

open CheckedInt ByteOrder

/-- Bytes as the runtime holds them: it allocates no longer list. -/
abbrev Bytes := {b : List UInt8 // b.length ≤ 1152921504606846972}

structure Der where
  ok : Bool
  tag : Int
  pos : Int
  start : Int
  len : Int
  next : Int
  deriving DecidableEq

def derBad : Der := ⟨false, 0, 0, 0, 0, 0⟩

/-- Byte `i`; any index outside the list traps. -/
def byteAt (b : List UInt8) (i : Int) : Option Int :=
  if i < 0 then none else b[i.toNat]?.map fun x => (x.toNat : Int)

/-- The bits `m` of a byte. -/
def bits (a : Int) (m : Nat) : Nat := a.toNat &&& m

/-- `acc` extended by the `n` bytes from `i`. -/
def derReadLenAcc (b : List UInt8) : (i : Int) → (n : Nat) → (acc : Int) → Option Int
  | _, 0, acc => some acc
  | i, n + 1, acc => do
    let byte ← byteAt b i
    let high ← mul 64 acc 256
    let step ← add 64 high byte
    let ni ← add 64 i 1
    derReadLenAcc b ni n step

def derFit (tag pos start len lim : Int) : Option Der := do
  let stop ← add 64 start len
  if stop > lim then some derBad else some ⟨true, tag, pos, start, len, stop⟩

/-- An element with a long length of `cnt` octets from `first`. -/
def derLong (b : List UInt8) (tag pos first cnt lim : Int) : Option Der :=
  if cnt = 0 ∨ cnt > 4 then some derBad
  else do
    let start ← add 64 first cnt
    if start > lim then some derBad
    else do
      let lead ← byteAt b first
      if lead = 0 then some derBad
      else do
        let len ← derReadLenAcc b first cnt.toNat 0
        if len < 128 then some derBad else derFit tag pos start len lim

/-- The element at `pos`, which must end at or before `stop`. -/
def derAt (b : List UInt8) (pos stop : Int) : Option Der :=
  let lim := min stop b.length
  if pos < 0 then some derBad
  else do
    let first ← add 64 pos 2
    if first > lim then some derBad
    else do
      let tag ← byteAt b pos
      if bits tag 31 = 31 then some derBad
      else do
        let second ← add 64 pos 1
        let l0 ← byteAt b second
        if l0 < 128 then derFit tag pos first l0 lim
        else do
          let cnt ← sub 64 l0 128
          derLong b tag pos first cnt lim

def derEnd (d : Der) : Option Int := add 64 d.start d.len

def derChild (b : List UInt8) (parent : Der) : Option Der :=
  if !parent.ok || bits parent.tag 32 == 0 then some derBad
  else do
    let stop ← derEnd parent
    derAt b parent.start stop

def derSibling (b : List UInt8) (prev parent : Der) : Option Der :=
  if !prev.ok || !parent.ok then some derBad
  else do
    let stop ← derEnd parent
    derAt b prev.next stop

/-! ## Headers -/

/-- A length, most significant octet first, none of them a leading zero. -/
def lengthOctets (len : Nat) : List UInt8 := (split (Nat.digits 256 len).length len).reverse

/-- The header of an element: its tag, and its length in the shortest form. -/
def derHeader (tag : UInt8) (len : Nat) : List UInt8 :=
  tag :: if len < 128 then [UInt8.ofNat len]
    else UInt8.ofNat (128 + (lengthOctets len).length) :: lengthOctets len

/-- An element stands at `pos`: a tag of one octet and low form, a definite length of at most
four octets in the shortest form, and the content, all before `lim`. -/
structure ElementAt (b : List UInt8) (pos : Nat) (lim : Int) (tag : UInt8) (len : Nat) : Prop where
  low : tag.toNat % 32 ≠ 31
  short : len < 256 ^ 4
  header : derHeader tag len <+: b.drop pos
  inside : ((pos + (derHeader tag len).length + len : Nat) : Int) ≤ lim

/-- What the reader reports of an element. -/
def report (tag : UInt8) (pos len : Nat) : Der :=
  let start := pos + (derHeader tag len).length
  ⟨true, tag.toNat, pos, start, len, (start + len : Nat)⟩

theorem length_lengthOctets (len : Nat) :
    (lengthOctets len).length = (Nat.digits 256 len).length := by
  rw [lengthOctets, List.length_reverse, length_split]

theorem value_lengthOctets (len : Nat) : value (lengthOctets len).reverse = len := by
  rw [lengthOctets, List.reverse_reverse, value_split]
  exact Nat.mod_eq_of_lt (Nat.lt_base_pow_length_digits (by decide))

/-- Octets without a leading zero are the octets of their value. -/
theorem lengthOctets_value {o : UInt8} {os : List UInt8} (h : o ≠ 0) :
    lengthOctets (value (o :: os).reverse) = o :: os := by
  have hpos : 0 < o.toNat := Nat.pos_of_ne_zero fun h0 => h (UInt8.toNat_inj.1 h0)
  have hval : value (o :: os).reverse = value os.reverse + 256 ^ os.length * o.toNat := by
    rw [List.reverse_cons, value_append, List.length_reverse, value, value, Nat.mul_zero, Nat.add_zero]
  have hlen : (Nat.digits 256 (value (o :: os).reverse)).length = (o :: os).reverse.length := by
    apply Nat.le_antisymm
    · exact (Nat.digits_length_le_iff (by decide) _).2 (value_lt _)
    · have hlow : 256 ^ os.length ≤ value (o :: os).reverse := by
        rw [hval]
        exact (Nat.le_mul_of_pos_right _ hpos).trans (Nat.le_add_left _ _)
      rw [List.length_reverse, List.length_cons]
      exact (Nat.lt_digits_length_iff (by decide) _).2 hlow
  rw [lengthOctets, hlen, split_value, List.reverse_reverse]

variable {i len : Nat} {b : Bytes} {rest : List UInt8} {pos stop : Int} {d e parent : Der}

theorem lengthOctets_cons (h : len ≠ 0) : ∃ o os, lengthOctets len = o :: os ∧ o ≠ 0 := by
  cases hos : lengthOctets len with
  | nil =>
    have hval := value_lengthOctets len
    rw [hos] at hval
    exact absurd hval.symm h
  | cons o os =>
    refine ⟨o, os, rfl, ?_⟩
    rintro rfl
    -- a leading zero would leave a shorter number
    have hval := value_lengthOctets len
    rw [hos, List.reverse_cons, value_append] at hval
    have hlt : len < 256 ^ os.length := by
      have := value_lt os.reverse
      rw [List.length_reverse] at this
      rw [← hval]
      exact this
    have hlen := (Nat.digits_length_le_iff (by decide) _).2 hlt
    rw [← length_lengthOctets, hos, List.length_cons] at hlen
    omega

/-! ## Reading octets -/

theorem byteAt_natCast (b : List UInt8) (i : Nat) :
    byteAt b i = b[i]?.map fun x => (x.toNat : Int) := by
  rw [byteAt, if_neg (by omega), Int.toNat_natCast]

theorem byteAt_drop {b : List UInt8} {x : UInt8} (h : b.drop i = x :: rest) :
    byteAt b i = some (x.toNat : Int) := by
  have hget : b[i]? = some x := by
    rw [← Nat.add_zero i, ← List.getElem?_drop, h]
    rfl
  rw [byteAt_natCast, hget]
  rfl

theorem drop_succ {b : List UInt8} {x : UInt8} (h : b.drop i = x :: rest) :
    b.drop (i + 1) = rest := by
  rw [← List.drop_drop, h]
  rfl

theorem bits_low (x : UInt8) : bits x.toNat 31 = x.toNat % 32 := by
  rw [bits, Int.toNat_natCast, show (31 : Nat) = 2 ^ 5 - 1 from rfl, Nat.and_two_pow_sub_one_eq_mod]

theorem derReadLenAcc_eq {b os : List UInt8} (acc : Nat) (h : b.drop i = os ++ rest)
    (hi : i + os.length ≤ 4611686018427387904)
    (hacc : (acc + 1) * 256 ^ os.length ≤ 4611686018427387904) :
    derReadLenAcc b i os.length acc = some ((acc * 256 ^ os.length + value os.reverse : Nat) : Int) := by
  induction os generalizing i acc with
  | nil =>
    show some (acc : Int) = some ((acc * 256 ^ 0 + 0 : Nat) : Int)
    rw [Nat.pow_zero, Nat.mul_one, Nat.add_zero]
  | cons o os ih =>
    have ho := o.toNat_lt
    rw [List.length_cons] at hi hacc
    have hstep : (acc * 256 + o.toNat + 1) * 256 ^ os.length ≤ 4611686018427387904 := by
      refine le_trans (Nat.mul_le_mul_right _ (show _ ≤ (acc + 1) * 256 by omega)) ?_
      rwa [Nat.pow_succ', ← Nat.mul_assoc] at hacc
    have hsmall : acc * 256 + o.toNat + 1 ≤ 4611686018427387904 :=
      (Nat.le_mul_of_pos_right _ (Nat.pow_pos (by decide))).trans hstep
    have h1 : mul 64 (acc : Int) 256 = some ((acc * 256 : Nat) : Int) := by
      exact mul_of_fits (fits_64.2 (by omega))
    have h2 : add 64 ((acc * 256 : Nat) : Int) o.toNat = some ((acc * 256 + o.toNat : Nat) : Int) := by
      exact add_of_fits (fits_64.2 (by omega))
    have h3 : add 64 (i : Int) 1 = some ((i + 1 : Nat) : Int) := by
      exact add_of_fits (fits_64.2 (by omega))
    have hval : (acc * 256 + o.toNat) * 256 ^ os.length + value os.reverse =
        acc * 256 ^ (os.length + 1) + value (o :: os).reverse := by
      rw [List.reverse_cons, value_append, List.length_reverse, value, value, Nat.pow_succ']
      ring
    rw [List.length_cons, ← hval, ← ih _ (drop_succ h) (by omega) hstep]
    exact (bind_of_eq (byteAt_drop h) _).trans <| (bind_of_eq h1 _).trans <|
      (bind_of_eq h2 _).trans <| bind_of_eq h3 _

/-- An index past the head of an element. -/
theorem add_natCast (i n : Nat) (h : i + n ≤ 4611686018427387904) :
    add 64 (i : Int) n = some ((i + n : Nat) : Int) := by
  have hfit : Fits 64 ((i : Int) + n) := fits_64.2 (by omega)
  rw [add_of_fits hfit, Nat.cast_add]

theorem derFit_inside {tag : Int} {start : Nat} {lim : Int}
    (hcap : start + len ≤ 4611686018427387904) (h : ((start + len : Nat) : Int) ≤ lim) :
    derFit tag pos start len lim = some ⟨true, tag, pos, start, len, ((start + len : Nat) : Int)⟩ := by
  have hin : ¬ ((start + len : Nat) : Int) > lim := by omega
  simp only [derFit, add_natCast start len hcap, some_bind, if_neg hin]

/-- An element that stands at `pos` is reported. -/
theorem derAt_element {p : Nat} {tag : UInt8}
    (h : ElementAt b.val p (min stop b.val.length) tag len) :
    derAt b.val p stop = some (report tag p len) := by
  obtain ⟨hlow, hshort, ⟨rest, hhead⟩, hinside⟩ := h
  obtain ⟨lim, hlim⟩ : ∃ lim, min stop (b.val.length : Int) = lim := ⟨_, rfl⟩
  have hlen : p + (derHeader tag len).length + len ≤ b.val.length := by
    omega
  rw [hlim] at hinside
  have htag : b.val.drop p = tag :: ((derHeader tag len).tail ++ rest) := hhead.symm
  have hrest := drop_succ htag
  have hfirst : add 64 (p : Int) 2 = some ((p + 2 : Nat) : Int) := add_natCast p 2 (by omega)
  have hsecond : add 64 (p : Int) 1 = some ((p + 1 : Nat) : Int) := add_natCast p 1 (by omega)
  have hbits : ¬ bits tag.toNat 31 = 31 := by
    rw [bits_low]
    exact hlow
  have hpos : ¬ (p : Int) < 0 := by omega
  unfold report
  by_cases hsmall : len < 128
  · have hheader : derHeader tag len = [tag, UInt8.ofNat len] := by rw [derHeader, if_pos hsmall]
    rw [hheader] at hinside hlen hrest ⊢
    have hnat : (UInt8.ofNat len).toNat = len :=
      UInt8.toNat_ofNat_of_lt' (hsmall.trans (by decide))
    have hl0 : byteAt b.val ((p + 1 : Nat) : Int) = some (len : Int) := by
      rw [byteAt_drop hrest, hnat]
    have hroom : ¬ ((p + 2 : Nat) : Int) > lim := by
      have hlength : [tag, UInt8.ofNat len].length = 2 := rfl
      omega
    simp only [derAt, hlim, if_neg hpos, hfirst, hsecond, some_bind,
      if_neg hroom, byteAt_drop htag, if_neg hbits, hl0, if_pos (show (len : Int) < 128 by omega)]
    exact derFit_inside (by omega) hinside
  · obtain ⟨o, os, hos, ho⟩ := lengthOctets_cons (show len ≠ 0 by omega)
    have hval := value_lengthOctets len
    have hfour : (o :: os).length ≤ 4 := by
      rw [← hos, length_lengthOctets]
      exact (Nat.digits_length_le_iff (by decide) _).2 hshort
    have hheader : derHeader tag len = tag :: UInt8.ofNat (128 + (o :: os).length) :: o :: os := by
      rw [derHeader, if_neg hsmall, hos]
    rw [hos] at hval
    rw [hheader] at hinside hlen hrest ⊢
    obtain ⟨cnt, hcnt⟩ : ∃ cnt, (o :: os).length = cnt := ⟨_, rfl⟩
    have hcnt1 : 1 ≤ cnt := by
      rw [← hcnt, List.length_cons]
      omega
    have hlength : (tag :: UInt8.ofNat (128 + cnt) :: o :: os).length = 2 + cnt := by
      rw [List.length_cons, List.length_cons, hcnt]
      omega
    rw [hcnt] at hfour hinside hlen hrest ⊢
    rw [hlength] at hinside hlen ⊢
    have hnat : (UInt8.ofNat (128 + cnt)).toNat = 128 + cnt := by
      rw [UInt8.toNat_ofNat']
      omega
    have hl0 : byteAt b.val ((p + 1 : Nat) : Int) = some ((128 + cnt : Nat) : Int) := by
      rw [byteAt_drop hrest, hnat]
    have hrest2 : b.val.drop (p + 2) = o :: (os ++ rest) := drop_succ hrest
    have hsub : sub 64 ((128 + cnt : Nat) : Int) 128 = some (cnt : Int) := by
      have hdiff : ((128 + cnt : Nat) : Int) - 128 = cnt := by omega
      rw [sub_of_fits (by rw [hdiff]; exact fits_64.2 (by omega)), hdiff]
    have hread := derReadLenAcc_eq 0 (show b.val.drop (p + 2) = (o :: os) ++ rest from hrest2)
      (by omega) (by
        rw [hcnt]
        exact (Nat.mul_le_mul_left _ (Nat.pow_le_pow_right (by decide) hfour)).trans (by decide))
    rw [hcnt, hval, Nat.zero_mul, Nat.zero_add, Nat.cast_zero] at hread
    have ho0 : ¬ (o.toNat : Int) = 0 := by
      intro h0
      exact ho (UInt8.toNat_inj.1 (by exact_mod_cast h0))
    have hstart := add_natCast (p + 2) cnt (by omega)
    have hlong : derLong b.val tag.toNat p ((p + 2 : Nat) : Int) cnt lim =
        derFit tag.toNat p ((p + 2 + cnt : Nat) : Int) len lim := by
      simp only [derLong, if_neg (show ¬ ((cnt : Int) = 0 ∨ (cnt : Int) > 4) by omega), hstart,
        some_bind,
        if_neg (show ¬ ((p + 2 + cnt : Nat) : Int) > lim by omega), byteAt_drop hrest2, if_neg ho0,
        Int.toNat_natCast, hread, if_neg (show ¬ (len : Int) < 128 by omega)]
    simp only [derAt, hlim, if_neg hpos, hfirst, hsecond, some_bind,
      if_neg (show ¬ ((p + 2 : Nat) : Int) > lim by omega), byteAt_drop htag, if_neg hbits, hl0,
      if_neg (show ¬ ((128 + cnt : Nat) : Int) < 128 by omega), hsub, hlong]
    rw [derFit_inside (by omega) (by omega), Nat.add_assoc p 2 cnt]

theorem drop_two {b : List UInt8} {p : Nat} (h : p + 2 ≤ b.length) :
    ∃ x y rest, b.drop p = x :: y :: rest :=
  ⟨_, _, _, by rw [List.drop_eq_getElem_cons (show p < b.length by omega),
    List.drop_eq_getElem_cons (show p + 1 < b.length by omega)]⟩

/-! ## What the reader reports -/

theorem derFit_cases (tag pos : Int) (start len : Nat) (lim : Int)
    (hcap : start + len ≤ 4611686018427387904) :
    derFit tag pos start len lim = some derBad ∨
      ((start + len : Nat) : Int) ≤ lim ∧ derFit tag pos start len lim =
        some ⟨true, tag, pos, start, len, ((start + len : Nat) : Int)⟩ := by
  by_cases h : ((start + len : Nat) : Int) ≤ lim
  · exact Or.inr ⟨h, derFit_inside hcap h⟩
  · left
    have hout : ((start + len : Nat) : Int) > lim := by omega
    simp only [derFit, add_natCast start len hcap, some_bind,
      if_pos hout]

/-- A long length that is not refused is that of one to four octets, in its shortest form. -/
theorem derLong_cases (tag pos : Int) (first n : Nat) {lim : Int} (hfirst : first ≤ b.val.length)
    (hn : n < 128) (hlim : lim ≤ b.val.length) : derLong b.val tag pos first n lim = some derBad ∨
      ∃ o os rest, b.val.drop first = o :: os ++ rest ∧ (o :: os).length = n ∧ n ≤ 4 ∧ o ≠ 0 ∧
        128 ≤ value (o :: os).reverse ∧
        ((first + n + value (o :: os).reverse : Nat) : Int) ≤ lim ∧
        derLong b.val tag pos first n lim = some ⟨true, tag, pos, ((first + n : Nat) : Int),
          value (o :: os).reverse, ((first + n + value (o :: os).reverse : Nat) : Int)⟩ := by
  by_cases hcnt : (n : Int) = 0 ∨ (n : Int) > 4
  · left
    rw [derLong, if_pos hcnt]
  have hstart := add_natCast first n (by omega)
  by_cases hroom : ((first + n : Nat) : Int) > lim
  · left
    simp only [derLong, if_neg hcnt, hstart, some_bind, if_pos hroom]
  have hlen : n ≤ (b.val.drop first).length := by
    rw [List.length_drop]
    omega
  obtain ⟨o, os, hos⟩ : ∃ o os, (b.val.drop first).take n = o :: os := by
    cases hos : (b.val.drop first).take n with
    | nil =>
      have hzero : ((b.val.drop first).take n).length = n := List.length_take_of_le hlen
      rw [hos, List.length_nil] at hzero
      omega
    | cons o os => exact ⟨o, os, rfl⟩
  have hosn : (o :: os).length = n := by rw [← hos, List.length_take_of_le hlen]
  have hdrop : b.val.drop first = o :: os ++ (b.val.drop first).drop n := by
    rw [← hos, List.take_append_drop]
  have hlead : byteAt b.val first = some (o.toNat : Int) := byteAt_drop hdrop
  have hpow : 256 ^ n ≤ 256 ^ 4 := Nat.pow_le_pow_right (by decide) (by omega)
  have hread := derReadLenAcc_eq 0 hdrop (by omega) (by
    rw [hosn]
    exact (Nat.mul_le_mul_left _ hpow).trans (by decide))
  rw [hosn, Nat.zero_mul, Nat.zero_add, Nat.cast_zero] at hread
  by_cases ho : o = 0
  · left
    have hzero : (o.toNat : Int) = 0 := by
      rw [ho]
      rfl
    simp only [derLong, if_neg hcnt, hstart, some_bind, if_neg hroom,
      hlead, if_pos hzero]
  have hne : ¬ (o.toNat : Int) = 0 := by
    intro h0
    exact ho (UInt8.toNat_inj.1 (by exact_mod_cast h0))
  by_cases hmin : ((value (o :: os).reverse : Nat) : Int) < 128
  · left
    simp only [derLong, if_neg hcnt, hstart, some_bind, if_neg hroom,
      hlead, if_neg hne, Int.toNat_natCast, hread, if_pos hmin]
  have hfit : derLong b.val tag pos first n lim =
      derFit tag pos ((first + n : Nat) : Int) (value (o :: os).reverse : Nat) lim := by
    simp only [derLong, if_neg hcnt, hstart, some_bind, if_neg hroom,
      hlead, if_neg hne, Int.toNat_natCast, hread, if_neg hmin]
  have hlt := value_lt (o :: os).reverse
  rw [List.length_reverse, hosn] at hlt
  rw [hfit]
  rcases derFit_cases tag pos (first + n) (value (o :: os).reverse) lim (by omega) with
    hbad | ⟨hin, heq⟩
  · exact Or.inl hbad
  · exact Or.inr ⟨o, os, _, hdrop, hosn, by omega, ho, by omega, hin, heq⟩

/-- Past a head that fits the reader answers, and what it reports stands there. -/
theorem derAt_cases (b : Bytes) (stop : Int) (hfit : Fits 64 (pos + 2)) :
    derAt b.val pos stop = some derBad ∨ ∃ (p : Nat) (tag : UInt8) (len : Nat), pos = p ∧
      ElementAt b.val p (min stop b.val.length) tag len ∧
      derAt b.val pos stop = some (report tag p len) := by
  obtain ⟨lim, hlim⟩ : ∃ lim, min stop (b.val.length : Int) = lim := ⟨_, rfl⟩
  have hle : lim ≤ b.val.length := hlim ▸ min_le_right stop (b.val.length : Int)
  by_cases hpos : pos < 0
  · left
    rw [derAt, if_pos hpos]
  obtain ⟨p, rfl⟩ := Int.eq_ofNat_of_zero_le (show 0 ≤ pos by omega)
  by_cases hroom : (p : Int) + 2 > lim
  · left
    simp [derAt, hlim, add_of_fits hfit,
      if_pos hroom]
  obtain ⟨tag, l0, rest, hdrop⟩ := drop_two (show p + 2 ≤ b.val.length by omega)
  have hsecond : add 64 (p : Int) 1 = some ((p + 1 : Nat) : Int) := add_natCast p 1 (by omega)
  have hl0 := byteAt_drop (drop_succ hdrop)
  have hlt := l0.toNat_lt
  by_cases hlow : bits tag.toNat 31 = 31
  · left
    simp [derAt, hlim, add_of_fits hfit,
      byteAt_drop hdrop, if_pos hlow]
  by_cases hsmall : (l0.toNat : Int) < 128
  · have hstep : derAt b.val p stop = derFit tag.toNat p ((p + 2 : Nat) : Int) l0.toNat lim := by
      simp only [derAt, hlim, if_neg hpos, add_of_fits hfit, some_bind,
        if_neg hroom, byteAt_drop hdrop, if_neg hlow, hsecond, hl0, if_pos hsmall]
      rfl
    have hheader : derHeader tag l0.toNat = [tag, l0] := by
      rw [derHeader, if_pos (by omega), UInt8.ofNat_toNat]
    rw [hstep]
    rcases derFit_cases tag.toNat p (p + 2) l0.toNat lim (by omega) with hbad | ⟨hin, heq⟩
    · exact Or.inl hbad
    refine Or.inr ⟨p, tag, l0.toNat, rfl, ⟨?_, by omega, ?_, ?_⟩, ?_⟩
    · rwa [bits_low] at hlow
    · rw [hheader, hdrop]
      exact ⟨rest, rfl⟩
    · rw [hheader, hlim]
      exact hin
    · rw [heq, report, hheader]
      rfl
  · have hsub : sub 64 (l0.toNat : Int) 128 = some ((l0.toNat - 128 : Nat) : Int) := by
      have hdiff : (l0.toNat : Int) - 128 = (l0.toNat - 128 : Nat) := by omega
      rw [sub_of_fits (by rw [hdiff]; exact fits_64.2 (by omega)), hdiff]
    have hstep : derAt b.val p stop =
        derLong b.val tag.toNat p ((p + 2 : Nat) : Int) (l0.toNat - 128 : Nat) lim := by
      simp only [derAt, hlim, if_neg hpos, add_of_fits hfit, some_bind,
        if_neg hroom, byteAt_drop hdrop, if_neg hlow, hsecond, hl0, if_neg hsmall, hsub]
      rfl
    rw [hstep]
    rcases derLong_cases tag.toNat p (p + 2) (l0.toNat - 128) (show p + 2 ≤ b.val.length by omega)
      (by omega) hle with hbad | ⟨o, os, rest', hos, hosn, hn, ho, hmin, hin, heq⟩
    · exact Or.inl hbad
    have hlen := value_lt (o :: os).reverse
    rw [List.length_reverse, hosn] at hlen
    have hheader : derHeader tag (value (o :: os).reverse) = tag :: l0 :: o :: os := by
      rw [derHeader, if_neg (by omega), lengthOctets_value ho, hosn, Nat.add_sub_cancel' (by omega),
        UInt8.ofNat_toNat]
    have hlength : (tag :: l0 :: o :: os).length = 2 + (l0.toNat - 128) := by
      rw [List.length_cons, List.length_cons, hosn]
      omega
    refine Or.inr ⟨p, tag, value (o :: os).reverse, rfl, ⟨?_, ?_, ?_, ?_⟩, ?_⟩
    · rwa [bits_low] at hlow
    · exact hlen.trans_le (Nat.pow_le_pow_right (by decide) hn)
    · rw [hheader, hdrop, ← drop_succ (drop_succ hdrop), hos]
      exact ⟨rest', rfl⟩
    · rw [hheader, hlim, hlength, ← Nat.add_assoc p 2]
      exact hin
    · rw [heq, report, hheader, hlength, ← Nat.add_assoc p 2]

theorem fits_of_derAt (h : derAt b.val pos stop = some d) (hok : d.ok = true) :
    Fits 64 (pos + 2) := by
  unfold derAt at h
  by_cases hpos : pos < 0
  · rw [if_pos hpos, Option.some.injEq] at h
    rw [← h] at hok
    cases hok
  · rw [if_neg hpos] at h
    obtain ⟨first, hfirst, -⟩ := Option.bind_eq_some_iff.1 h
    exact (add_eq_some.1 hfirst).1

/-- The reader reports an element exactly where one stands. -/
theorem derAt_iff (b : Bytes) (pos stop : Int) (d : Der) :
    derAt b.val pos stop = some d ∧ d.ok = true ↔
      ∃ (p : Nat) (tag : UInt8) (len : Nat), pos = p ∧
        ElementAt b.val p (min stop b.val.length) tag len ∧ d = report tag p len := by
  constructor
  · rintro ⟨h, hok⟩
    rcases derAt_cases b stop (fits_of_derAt h hok) with hbad | ⟨p, tag, len, hp, helem, heq⟩
    · rw [hbad, Option.some.injEq] at h
      rw [← h] at hok
      cases hok
    · rw [heq, Option.some.injEq] at h
      exact ⟨p, tag, len, hp, helem, h.symm⟩
  · rintro ⟨p, tag, len, rfl, helem, rfl⟩
    exact ⟨derAt_element helem, rfl⟩

/-- The reader traps only where the head of an element would end past 64 bits. -/
theorem derAt_none_iff (b : Bytes) (pos stop : Int) :
    derAt b.val pos stop = none ↔ 0 ≤ pos ∧ ¬ Fits 64 (pos + 2) := by
  constructor
  · intro h
    constructor
    · by_contra hpos
      rw [derAt, if_pos (by omega)] at h
      cases h
    · intro hfit
      rcases derAt_cases b stop hfit with hbad | ⟨p, tag, len, -, -, heq⟩
      · rw [hbad] at h
        cases h
      · rw [heq] at h
        cases h
  · rintro ⟨hpos, hfit⟩
    have hadd : add 64 pos 2 = none := if_neg hfit
    simp [derAt, if_neg (show ¬ pos < 0 by omega), hadd, Option.bind_eq_bind, Option.bind_none]

/-! ## Elements in turn -/

/-- An element the reader reported somewhere in the input. -/
def Read (b : Bytes) (d : Der) : Prop := d.ok = true ∧ ∃ pos stop, derAt b.val pos stop = some d

/-- The elements of `parent` one after another, the newest first. -/
inductive Enumerated (b : Bytes) (parent : Der) : List Der → Prop
  | none : Enumerated b parent []
  | child {e : Der} (h : derChild b.val parent = some e) (hok : e.ok = true) :
      Enumerated b parent [e]
  | sibling {e next : Der} {es : List Der} (hes : Enumerated b parent (e :: es))
      (h : derSibling b.val e parent = some next) (hok : next.ok = true) :
      Enumerated b parent (next :: e :: es)

/-- Each element starts where the one before it ends, the first with the content. -/
def Consecutive (parent : Der) : List Der → Prop
  | [] => True
  | [e] => e.pos = parent.start
  | next :: e :: es => next.pos = e.next ∧ Consecutive parent (e :: es)

theorem two_le_header (tag : UInt8) (len : Nat) : 2 ≤ (derHeader tag len).length := by
  unfold derHeader
  split_ifs
  · exact Nat.le_refl 2
  · rw [List.length_cons, List.length_cons]
    omega

/-- Where a reported element lies. -/
theorem derAt_bounds (h : derAt b.val pos stop = some d) (hok : d.ok = true) :
    0 ≤ d.pos ∧ d.pos = pos ∧ d.pos + 2 ≤ d.start ∧ 0 ≤ d.len ∧
      d.next = d.start + d.len ∧ d.next ≤ stop ∧ d.next ≤ b.val.length := by
  obtain ⟨p, tag, len, rfl, helem, rfl⟩ := (derAt_iff b pos stop d).1 ⟨h, hok⟩
  have htwo := two_le_header tag len
  have hin := helem.inside
  obtain ⟨n, hn⟩ : ∃ n, (derHeader tag len).length = n := ⟨_, rfl⟩
  unfold report
  simp only [true_and, Nat.cast_add] at hin ⊢
  omega

theorem Read.bounds (h : Read b d) : 0 ≤ d.pos ∧ d.pos + 2 ≤ d.start ∧
    0 ≤ d.len ∧ d.next = d.start + d.len ∧ d.next ≤ b.val.length := by
  obtain ⟨hok, pos, stop, h⟩ := h
  have hb := derAt_bounds h hok
  omega

theorem Read.derEnd (h : Read b d) : derEnd d = some d.next := by
  have hb := h.bounds
  have hcap := b.property
  rw [Exact.derEnd, hb.2.2.2.1, add_of_fits (fits_64.2 (by omega))]

/-- The reader does not trap inside the input. -/
theorem derAt_ne_none (stop : Int) (h : pos ≤ b.val.length) : derAt b.val pos stop ≠ none := by
  intro hnone
  obtain ⟨hpos, hfit⟩ := (derAt_none_iff b pos stop).1 hnone
  exact hfit (fits_64.2 (by omega))

theorem derChild_ne_none (h : Read b parent) : derChild b.val parent ≠ none := by
  have hb := h.bounds
  unfold derChild
  split_ifs
  · exact Option.some_ne_none _
  · rw [h.derEnd]
    exact derAt_ne_none _ (by omega)

theorem derSibling_ne_none (he : Read b e) (h : Read b parent) :
    derSibling b.val e parent ≠ none := by
  have hb := he.bounds
  unfold derSibling
  split_ifs
  · exact Option.some_ne_none _
  · rw [h.derEnd]
    exact derAt_ne_none _ (by omega)

theorem of_derChild (hp : Read b parent) (h : derChild b.val parent = some e) (hok : e.ok = true) :
    derAt b.val parent.start parent.next = some e := by
  unfold derChild at h
  split_ifs at h
  · rw [Option.some.injEq] at h
    rw [← h] at hok
    cases hok
  · rwa [hp.derEnd] at h

theorem of_derSibling {next : Der} (hp : Read b parent)
    (h : derSibling b.val e parent = some next) (hok : next.ok = true) :
    derAt b.val e.next parent.next = some next := by
  unfold derSibling at h
  split_ifs at h
  · rw [Option.some.injEq] at h
    rw [← h] at hok
    cases hok
  · rwa [hp.derEnd] at h

/-- An element of a parent, inside its content. -/
structure Within (b : Bytes) (parent e : Der) : Prop where
  read : Read b e
  first : parent.start ≤ e.pos
  last : e.next ≤ parent.next

/-- Every element added lies past the ones before it. -/
theorem Enumerated.within {es : List Der} (hp : Read b parent) (h : Enumerated b parent es) :
    Consecutive parent es ∧ (∀ e ∈ es, Within b parent e) ∧
      es.Pairwise (fun x y => y.next ≤ x.pos) ∧
      ∀ e ∈ es.head?, parent.start + 2 * es.length ≤ e.next := by
  induction h with
  | none =>
    refine ⟨trivial, ?_, List.Pairwise.nil, ?_⟩
    · intro e he
      cases he
    · intro e he
      cases he
  | @child e h hok =>
    have hread := of_derChild hp h hok
    have hb := derAt_bounds hread hok
    have hin : Within b parent e := ⟨⟨hok, _, _, hread⟩, by omega, by omega⟩
    refine ⟨hb.2.1, ?_, List.pairwise_singleton _ _, ?_⟩
    · intro x hx
      rwa [List.mem_singleton.1 hx]
    · intro x hx
      obtain rfl : e = x := by simpa using hx
      show parent.start + 2 * ((1 : Nat) : Int) ≤ e.next
      omega
  | @sibling e next es hes h hok ih =>
    obtain ⟨hcons, hin, hdis, hcount⟩ := ih
    have hread := of_derSibling hp h hok
    have hb := derAt_bounds hread hok
    have he := hin e List.mem_cons_self
    have hbe := he.read.bounds
    have hcount := hcount e rfl
    have hnew : Within b parent next := ⟨⟨hok, _, _, hread⟩, by omega, by omega⟩
    refine ⟨⟨hb.2.1, hcons⟩, ?_, List.pairwise_cons.2 ⟨?_, hdis⟩, ?_⟩
    · intro x hx
      rcases List.mem_cons.1 hx with rfl | hx
      · exact hnew
      · exact hin x hx
    · intro x hx
      rcases List.mem_cons.1 hx with rfl | hx
      · omega
      · have hlt := (List.pairwise_cons.1 hdis).1 x hx
        omega
    · intro x hx
      obtain rfl : next = x := by simpa using hx
      rw [List.length_cons, Nat.cast_add]
      omega

/-- The header of a reported element, written again, is the one that was read. -/
theorem derHeader_of_derAt (h : derAt b.val pos stop = some d) (hok : d.ok = true) :
    derHeader (UInt8.ofNat d.tag.toNat) d.len.toNat =
      (b.val.drop d.pos.toNat).take (d.start - d.pos).toNat := by
  obtain ⟨p, tag, len, rfl, helem, rfl⟩ := (derAt_iff b pos stop d).1 ⟨h, hok⟩
  have hlen : ((report tag p len).start - (report tag p len).pos).toNat =
      (derHeader tag len).length := by
    simp only [report]
    omega
  rw [hlen]
  show derHeader (UInt8.ofNat (tag.toNat : Int).toNat) (len : Int).toNat =
    (b.val.drop (p : Int).toNat).take _
  rw [Int.toNat_natCast, Int.toNat_natCast, Int.toNat_natCast, UInt8.ofNat_toNat]
  exact List.prefix_iff_eq_take.1 helem.header

/-- The strict reader accepts exactly the elements of DER, and walks over them without a trap. -/
theorem strict_reader_exact (b : Bytes) :
    (∀ pos stop d, derAt b.val pos stop = some d ∧ d.ok = true ↔
      ∃ (p : Nat) (tag : UInt8) (len : Nat), pos = p ∧
        ElementAt b.val p (min stop b.val.length) tag len ∧ d = report tag p len) ∧
    (∀ pos stop d, derAt b.val pos stop = some d → d.ok = true →
      derHeader (UInt8.ofNat d.tag.toNat) d.len.toNat =
        (b.val.drop d.pos.toNat).take (d.start - d.pos).toNat) ∧
    ∀ parent, Read b parent → derChild b.val parent ≠ none ∧
      ∀ es, Enumerated b parent es → (∀ e ∈ es, derSibling b.val e parent ≠ none) ∧
        Consecutive parent es ∧ es.Pairwise (fun x y => y.next ≤ x.pos) ∧
        (∀ e ∈ es, Within b parent e) ∧ 2 * (es.length : Int) ≤ parent.len := by
  refine ⟨derAt_iff b, ?_, ?_⟩
  · intro pos stop d h hok
    exact derHeader_of_derAt h hok
  · intro parent hp
    refine ⟨derChild_ne_none hp, ?_⟩
    intro es hes
    obtain ⟨hcons, hin, hdis, hcount⟩ := hes.within hp
    refine ⟨?_, hcons, hdis, hin, ?_⟩
    · intro e he
      exact derSibling_ne_none (hin e he).read hp
    · have hb := hp.bounds
      cases es with
      | nil => simpa using hb.2.2.1
      | cons e es =>
        have hlast := (hin e List.mem_cons_self).last
        have hfar := hcount e rfl
        omega

end X509.Exact
