import Resid.Decimals.Division

/-!
# Decimals as text

A value is printed in fixed notation, with all its digits or without the zeros at the end of
its fraction; a text is read digit by digit into limbs and rounded once.  Reading on limbs
does what `Runtime.fromStr` does on the number.

    value (coefDigits v) = val v.limbs                               (coefDigits_spec)
    val (parseDigits d) = value d                                    (parseDigits_spec)
    Compares (cmpV a b) a b                                          (cmpV_spec)
    Agrees p (fromStr s p) (Runtime.fromStr s p)                     (fromStr_agrees)
    fromStr (format v trim) v.prec = v                               (fromStr_format_eq)

## Algorithm

A text is its characters; the byte behind the last of them is not a digit.
-/

namespace Decimals

open FixedWidth Positional Decimal RoundAway Runtime

/-- `w` digits of `x`, the last written first. -/
def digitsOne (x : Nat) : Nat → Str
  | 0 => []
  | w + 1 => digitsOne (x / 10) w ++ [Char.ofNat (48 + x % 10)]

/-- The digits of the limbs; all but the top one have 19. -/
def digitsLimbs : List Nat → Str
  | [] => []
  | x :: l => digitsLimbs l ++ digitsOne x (if l = [] then ndig64 x else ld)

/-- The coefficient's digits, most significant first. -/
def coefDigits (v : Block) : Str := digitsLimbs v.limbs

def digitsValue : Str → Nat → Nat
  | [], x => x
  | c :: s, x => digitsValue s (x * 10 + digitOf c)

/-- The limbs of the digits before `stop`, 19 at a time from there down. -/
def parseLimbs (d : Str) : Nat → Nat → List Nat
  | 0, _ => []
  | n + 1, stop =>
    let st := stop - ld
    digitsValue ((d.drop st).take (stop - st)) 0 :: parseLimbs d n st

def parseDigits (d : Str) : List Nat :=
  trimTop (parseLimbs d ((d.length + ld - 1) / ld) d.length)

def expValue : Str → Nat → Except String (Nat × Str)
  | [], ev => pure (ev, [])
  | c :: s, ev =>
    if !c.isDigit then pure (ev, c :: s)
    else if ev > 100000 then throw outOfRange
    else expValue s (ev * 10 + digitOf c)

/-- The exponent and what follows it; without one nothing is read. -/
def expPart (hase : Bool) (pd p2 : Str) : Except String (Nat × Str) :=
  if hase then expValue pd 0 else pure (0, p2)

/-- A plain or e-notation decimal text, rounded to the precision. -/
def fromStr (s : Str) (prec : Nat) : Except String Block := do
  let c0 := s.head?
  let sign : Int := if c0 == some '-' then -1 else 1
  let p0 := if c0 = some '-' ∨ c0 = some '+' then s.tail else s
  let d1 := p0.takeWhile Char.isDigit
  let p1 := p0.dropWhile Char.isDigit
  let dot := p1.head? = some '.'
  let d2 := if dot then p1.tail.takeWhile Char.isDigit else []
  let p2 := if dot then p1.tail.dropWhile Char.isDigit else p1
  let exp0 : Int := -(d2.length : Int)
  let hase := p2.head? = some 'e' ∨ p2.head? = some 'E'
  let pe := p2.tail
  let es : Int := if hase ∧ pe.head? = some '-' then -1 else 1
  let pd := if hase ∧ (pe.head? = some '-' ∨ pe.head? = some '+') then pe.tail else pe
  let ev ← expPart hase pd p2
  if d1 ++ d2 = [] ∨ ev.2 ≠ [] then throw "dec: bad decimal string"
  else fromLimbs sign (parseDigits (d1 ++ d2)) (exp0 + es * ev.1) prec

def cmpV (a b : Block) : Int :=
  if a.sign ≠ b.sign then if a.sign > b.sign then 1 else -1
  else if a.sign = 0 then 0
  else
    let c := cmpMag a.limbs a.nd a.exp b.limbs b.nd b.exp
    if a.sign < 0 then -c else c

/-- The count without the zeros at the end. -/
def trailZeros (cd : Str) : Nat → Nat
  | 0 => 0
  | m + 1 => if cd.getD m '0' = '0' then trailZeros cd m else m + 1

def digAt (cd : Str) (nd i : Nat) : Char := if i < nd then cd.getD i '0' else '0'

/-- The digits from `i` up to `stop`. -/
def putDigits (cd : Str) (nd i stop : Nat) : Str := (List.range' i (stop - i)).map (digAt cd nd)

def fmtInt (cd : Str) (nd ipos last : Nat) : Str :=
  putDigits cd nd 0 ipos ++ if ipos ≥ last then [] else '.' :: putDigits cd nd ipos last

/-- `lead` zeros stand between the point and the first digit. -/
def fmtFrac (cd : Str) (nd lead last : Nat) : Str :=
  '0' :: '.' :: (zeros lead ++ putDigits cd nd 0 last)

/-- How many digits are printed, counted from the leading one. -/
def lastDigit (trim : Bool) (ipos : Int) (m n : Nat) : Nat :=
  if trim ∧ ipos < n then if m > ipos then m else if ipos > 0 then ipos.toNat else m else n

/-- Fixed notation with all significant digits, or (trim) without the trailing fractional
zeros and a bare point. -/
def format (v : Block) (trim : Bool) : Str :=
  let n := v.prec
  if v.sign = 0 then if trim then ['0'] else '0' :: '.' :: zeros n
  else
    let cd := coefDigits v
    let ipos := v.nd + v.exp
    let m := trailZeros cd v.nd
    let last := lastDigit trim ipos m n
    signText v.neg ++
      if ipos > 0 then fmtInt cd v.nd ipos.toNat last else fmtFrac cd v.nd (-ipos).toNat last

/-! ## Comparing values -/

variable {a b v : Block} {s : Str}

theorem Block.Valid.mag_pos (h : v.Valid) (hs : v.sign ≠ 0) : (0 : ℚ) < val v.limbs * 10 ^ v.exp :=
  mul_pos (Nat.cast_pos.2 (Nat.pos_of_ne_zero (h.val_ne_zero hs))) (ten_zpow_pos _)

theorem Block.value_of_pos (hs : v.sign = 1) : v.value = val v.limbs * 10 ^ v.exp := by
  rw [Block.value, hs, Int.cast_one, one_mul]

theorem Block.value_of_neg (hs : v.sign = -1) : v.value = -(val v.limbs * 10 ^ v.exp) := by
  rw [Block.value, hs, Int.cast_neg, Int.cast_one, neg_mul, one_mul, neg_mul]

/-- The signs of two values decide where they differ. -/
theorem value_lt_of_sign (ha : a.Valid) (hb : b.Valid) (h : b.sign < a.sign) :
    b.value < a.value := by
  by_cases hzero : a.sign = 0
  · have hneg : b.sign = -1 := by
      rcases hb.sign_ne_zero (by omega) with hs | hs <;> omega
    have hmag := hb.mag_pos (by omega)
    rw [Block.Valid.value_zero hzero, Block.value_of_neg hneg]
    linarith
  by_cases hbzero : b.sign = 0
  · have hpos : a.sign = 1 := by
      rcases ha.sign_ne_zero hzero with hs | hs <;> omega
    rw [Block.Valid.value_zero hbzero, Block.value_of_pos hpos]
    exact ha.mag_pos hzero
  · have hpos : a.sign = 1 := by
      rcases ha.sign_ne_zero hzero with hs | hs <;> rcases hb.sign_ne_zero hbzero with ht | ht <;> omega
    have hneg : b.sign = -1 := by
      rcases hb.sign_ne_zero hbzero with ht | ht <;> omega
    have hma := ha.mag_pos hzero
    have hmb := hb.mag_pos hbzero
    rw [Block.value_of_pos hpos, Block.value_of_neg hneg]
    linarith

/-- Values are compared as numbers. -/
theorem cmpV_spec (ha : a.Valid) (hb : b.Valid) : Compares (cmpV a b) a.value b.value := by
  unfold cmpV
  by_cases heq : a.sign = b.sign
  · rw [if_neg (not_not.2 heq)]
    by_cases hzero : a.sign = 0
    · rw [if_pos hzero, Block.Valid.value_zero hzero, Block.Valid.value_zero (heq ▸ hzero)]
      exact .inr (.inl ⟨rfl, rfl⟩)
    have hcmp := cmpMag_spec ha.normal hb.normal (ha.val_ne_zero hzero)
      (hb.val_ne_zero (heq ▸ hzero)) a.exp b.exp
    rw [← ha.nd, ← hb.nd] at hcmp
    rw [if_neg hzero]
    rcases ha.sign_ne_zero hzero with hs | hs
    · rw [if_neg (by omega), Block.value_of_pos hs, Block.value_of_pos (heq ▸ hs)]
      exact hcmp
    · rw [if_pos (by omega), Block.value_of_neg hs, Block.value_of_neg (heq ▸ hs)]
      exact hcmp.anti neg_lt_neg
  · rw [if_pos heq]
    by_cases hgt : a.sign > b.sign
    · rw [if_pos hgt]
      exact .inl ⟨rfl, value_lt_of_sign ha hb hgt⟩
    · rw [if_neg hgt]
      exact .inr (.inr ⟨rfl, value_lt_of_sign hb ha (by omega)⟩)

/-- Equal for the language is equal as a number. -/
theorem cmpV_eq_zero (ha : a.Valid) (hb : b.Valid) : cmpV a b = 0 ↔ a.value = b.value := by
  rcases cmpV_spec ha hb with ⟨hc, h⟩ | ⟨hc, h⟩ | ⟨hc, h⟩
  · exact iff_of_false (by omega) h.ne'
  · exact iff_of_true hc h
  · exact iff_of_false (by omega) h.ne

/-! ## Digits of a coefficient -/

theorem digitChar_spec {d : Nat} (hd : d < 10) :
    (Char.ofNat (48 + d)).isDigit = true ∧ digitOf (Char.ofNat (48 + d)) = d := by
  interval_cases d <;> decide

theorem digitsOne_spec (w : Nat) : ∀ x, AllDigits (digitsOne x w) ∧ (digitsOne x w).length = w ∧
    Decimal.value (digitsOne x w) = x % 10 ^ w := by
  induction w with
  | zero =>
    intro x
    refine ⟨?_, rfl, ?_⟩
    · intro c hc
      cases hc
    · rw [Nat.pow_zero, Nat.mod_one]
      rfl
  | succ w ih =>
    intro x
    obtain ⟨h1, h2, h3⟩ := ih (x / 10)
    obtain ⟨hc, hd⟩ := digitChar_spec (Nat.mod_lt x (by decide : 0 < 10))
    unfold digitsOne
    refine ⟨h1.append ?_, ?_, ?_⟩
    · intro c hmem
      rw [List.mem_singleton.1 hmem]
      exact hc
    · rw [List.length_append, h2, List.length_singleton]
    · rw [value_append, value_singleton, hd, h3, List.length_singleton, Nat.pow_one, Nat.pow_succ',
        Nat.mod_mul]
      ring

theorem digitsLimbs_append {t : Nat} (htb : t < bb) (ht : 0 < t) (low : List Nat)
    (hlow : IsDigits bb low) :
    AllDigits (digitsLimbs (low ++ [t])) ∧
      (digitsLimbs (low ++ [t])).length = 19 * low.length + ndig64 t ∧
      Decimal.value (digitsLimbs (low ++ [t])) = val (low ++ [t]) := by
  induction low with
  | nil =>
    obtain ⟨h1, h2, h3⟩ := digitsOne_spec (ndig64 t) t
    rw [Nat.mod_eq_of_lt (ndig64_spec htb ht).2.2] at h3
    rw [List.nil_append, digitsLimbs, if_pos rfl, digitsLimbs, List.nil_append, val_cons, val_nil,
      Nat.mul_zero, Nat.add_zero]
    exact ⟨h1, by rw [h2]; simp, h3⟩
  | cons x low ih =>
    obtain ⟨hx, hlow⟩ := hlow.of_cons
    obtain ⟨h1, h2, h3⟩ := digitsOne_spec ld x
    obtain ⟨i1, i2, i3⟩ := ih hlow
    rw [Nat.mod_eq_of_lt (show x < 10 ^ ld from hx)] at h3
    rw [List.cons_append, digitsLimbs, if_neg (by simp)]
    refine ⟨i1.append h1, ?_, ?_⟩
    · rw [List.length_append, i2, h2, List.length_cons, show ld = 19 from rfl]
      omega
    · rw [value_append, i3, h2, h3, val_cons, show 10 ^ ld = bb from rfl, Nat.mul_comm,
        Nat.add_comm]

/-- The printed coefficient is the coefficient, with its digits counted. -/
theorem coefDigits_spec (h : v.Valid) (hs : v.sign ≠ 0) :
    AllDigits (coefDigits v) ∧ (coefDigits v).length = v.nd ∧
      Decimal.value (coefDigits v) = val v.limbs := by
  have hne := mt (val_eq_zero_iff h.normal).2 (h.val_ne_zero hs)
  obtain ⟨low, t, hsplit, hlow, ht, htb⟩ := h.normal.split_top hne
  obtain ⟨h1, h2, h3⟩ := digitsLimbs_append htb ht low hlow
  rw [← hsplit] at h1 h2 h3
  refine ⟨h1, ?_, h3⟩
  have hlen : v.limbs.length = low.length + 1 := by
    rw [hsplit, List.length_append, List.length_singleton]
  have htop : v.limbs.getD low.length 0 = t := by
    rw [hsplit]
    simp
  rw [coefDigits, h2, h.nd, ndig, hlen, if_neg (by omega), Nat.add_sub_cancel, htop]
  rfl

/-! ## Limbs of digits -/

theorem digitsValue_eq (s : Str) : ∀ x, digitsValue s x = x * 10 ^ s.length + Decimal.value s := by
  induction s with
  | nil =>
    intro x
    simp [digitsValue]
  | cons c s ih =>
    intro x
    rw [digitsValue, ih, value_cons, List.length_cons, Nat.pow_succ]
    ring

theorem AllDigits.take (h : AllDigits s) (n : Nat) : AllDigits (s.take n) :=
  fun c hc => h c (List.mem_of_mem_take hc)

theorem AllDigits.drop (h : AllDigits s) (n : Nat) : AllDigits (s.drop n) :=
  fun c hc => h c (List.mem_of_mem_drop hc)

theorem parseLimbs_spec {d : Str} (hd : AllDigits d) (n : Nat) : ∀ stop, stop ≤ d.length →
    stop ≤ 19 * n → IsDigits bb (parseLimbs d n stop) ∧ (parseLimbs d n stop).length = n ∧
      val (parseLimbs d n stop) = Decimal.value (d.take stop) := by
  induction n with
  | zero =>
    intro stop _ hstop
    rw [show stop = 0 by omega]
    exact ⟨IsDigits.nil bb, rfl, by simp [parseLimbs]⟩
  | succ n ih =>
    intro stop hlen hstop
    have hld : ld = 19 := rfl
    have hchunk : ((d.drop (stop - ld)).take (stop - (stop - ld))).length = stop - (stop - ld) := by
      rw [List.length_take, List.length_drop]
      omega
    have hlt := value_lt (AllDigits.take (AllDigits.drop hd (stop - ld)) (stop - (stop - ld)))
    have hlimb : Decimal.value ((d.drop (stop - ld)).take (stop - (stop - ld))) < bb := by
      refine hlt.trans_le ?_
      rw [hchunk, show bb = 10 ^ 19 from rfl]
      exact Nat.pow_le_pow_right (by decide) (by omega)
    obtain ⟨h1, h2, h3⟩ := ih (stop - ld) (by omega) (by omega)
    have hsplit : d.take stop =
        d.take (stop - ld) ++ (d.drop (stop - ld)).take (stop - (stop - ld)) := by
      rw [← List.take_add, show stop - ld + (stop - (stop - ld)) = stop by omega]
    unfold parseLimbs
    simp only [digitsValue_eq, Nat.zero_mul, Nat.zero_add]
    refine ⟨IsDigits.cons hlimb h1, congrArg (· + 1) h2, ?_⟩
    rw [val_cons, h3, hsplit, value_append, hchunk]
    by_cases hfull : ld ≤ stop
    · rw [show stop - (stop - ld) = 19 by omega, show bb = 10 ^ 19 from rfl]
      ring
    · rw [show stop - ld = 0 by omega, List.take_zero, value_nil, Nat.mul_zero, Nat.zero_mul,
        Nat.add_zero, Nat.zero_add]

theorem parseDigits_spec {d : Str} (hd : AllDigits d) :
    Normal bb (parseDigits d) ∧ (parseDigits d).length ≤ d.length ∧
      val (parseDigits d) = Decimal.value d := by
  have hld : ld = 19 := rfl
  obtain ⟨h1, h2, h3⟩ := parseLimbs_spec hd ((d.length + ld - 1) / ld) d.length (Nat.le_refl _)
    (by rw [hld]; omega)
  rw [List.take_length] at h3
  refine ⟨normal_trim h1, ?_, ?_⟩
  · unfold parseDigits trimTop
    rw [List.length_take, h2, hld]
    omega
  · rw [parseDigits, val_trimTop h1, h3]

/-! ## Reading -/

/-- The same number, or a refusal of both. -/
def Agrees (p : Prec) : Except String Block → Option (Dec p) → Prop
  | .ok v, some d => v.Denotes d
  | .error _, none => True
  | _, _ => False

theorem Refines.agrees {p : Prec} {r : Except String Block} {o : Option (Dec p)}
    (h : Refines p r o) : Agrees p r o := by
  cases r with
  | ok v =>
    cases o with
    | some d => exact h
    | none => exact h.elim
  | error m =>
    cases o with
    | some d => exact h.elim
    | none => exact trivial

theorem fromLimbs_refines {l : List Nat} (hl : IsDigits bb l) (hlen : l.length < 1099511627776)
    {sign : Int} (hs : sign = 1 ∨ sign = -1) (e : Int) (p : Prec) :
    Refines p (fromLimbs sign l e p.val) (Runtime.finish (sign < 0) (val l) e p) := by
  by_cases hc : val l = 0
  · have hempty : (trimTop l).length = 0 := by
      rw [trimTop_eq one_lt_bb hl, ← val, hc, Nat.digits_zero]
      rfl
    unfold fromLimbs
    simp only [if_pos (Or.inl hempty : (trimTop l).length = 0 ∨ sign = 0)]
    rw [hc]
    exact rfl
  · rw [fromLimbs_eq hs hl hc hlen, ← val_trimTop hl]
    exact finish_refines (normal_trim hl).digits hs e p

theorem expValue_toOption (s : Str) : ∀ ev, Runtime.expValue s ev = (expValue s ev).toOption := by
  induction s with
  | nil =>
    intro ev
    rfl
  | cons c s ih =>
    intro ev
    unfold Runtime.expValue expValue
    split_ifs
    · rfl
    · rfl
    · exact ih _

/-- Reading limbs is reading the number. -/
theorem fromStr_agrees (hlen : s.length < 1099511627776) (p : Prec) :
    Agrees p (fromStr s p.val) (Runtime.fromStr s p) := by
  unfold fromStr Runtime.fromStr
  simp only []
  -- both read the same parts of the text
  have hp0 : (if s.head? = some '-' ∨ s.head? = some '+' then s.tail else s).length ≤ s.length := by
    split_ifs
    · rw [List.length_tail]
      omega
    · exact Nat.le_refl _
  generalize (if s.head? = some '-' ∨ s.head? = some '+' then s.tail else s) = p0 at hp0 ⊢
  have hd1 := allDigits_takeWhile p0
  have hsum : (p0.takeWhile Char.isDigit).length + (p0.dropWhile Char.isDigit).length =
      p0.length := by
    rw [← List.length_append, List.takeWhile_append_dropWhile]
  generalize p0.takeWhile Char.isDigit = d1 at hd1 hsum ⊢
  generalize p0.dropWhile Char.isDigit = p1 at hsum ⊢
  have hd2 : AllDigits (if p1.head? = some '.' then p1.tail.takeWhile Char.isDigit else []) := by
    split_ifs
    · exact allDigits_takeWhile _
    · intro c hc
      cases hc
  have hd2len : (if p1.head? = some '.' then p1.tail.takeWhile Char.isDigit else []).length ≤
      p1.length := by
    split_ifs
    · have htake := (List.takeWhile_prefix Char.isDigit (l := p1.tail)).length_le
      rw [List.length_tail] at htake
      omega
    · exact Nat.zero_le _
  generalize (if p1.head? = some '.' then p1.tail.takeWhile Char.isDigit else []) = d2
    at hd2 hd2len ⊢
  generalize (if p1.head? = some '.' then p1.tail.dropWhile Char.isDigit else p1) = p2
  generalize (if (p2.head? = some 'e' ∨ p2.head? = some 'E') ∧ p2.tail.head? = some '-'
    then (-1 : Int) else 1) = es
  generalize (if (p2.head? = some 'e' ∨ p2.head? = some 'E') ∧
    (p2.tail.head? = some '-' ∨ p2.tail.head? = some '+') then p2.tail.tail else p2.tail) = pd
  have hev : (if p2.head? = some 'e' ∨ p2.head? = some 'E' then Runtime.expValue pd 0
      else some (0, p2)) =
      (expPart (p2.head? = some 'e' ∨ p2.head? = some 'E') pd p2).toOption := by
    unfold expPart
    by_cases hase : p2.head? = some 'e' ∨ p2.head? = some 'E'
    · rw [if_pos hase, if_pos (by simpa using hase)]
      exact expValue_toOption pd 0
    · rw [if_neg hase, if_neg (by simpa using hase)]
      rfl
  rw [hev]
  generalize expPart (p2.head? = some 'e' ∨ p2.head? = some 'E') pd p2 = ev
  cases ev with
  | error m => exact trivial
  | ok ev =>
    obtain ⟨hnorm, hlimbs, hval⟩ := parseDigits_spec (hd1.append hd2)
    rw [List.length_append] at hlimbs
    show Agrees p (if d1 ++ d2 = [] ∨ ev.2 ≠ [] then throw "dec: bad decimal string"
        else fromLimbs (if (s.head? == some '-') = true then -1 else 1) (parseDigits (d1 ++ d2))
          (-(d2.length : Int) + es * ev.1) p.val)
      (if d1 ++ d2 = [] ∨ ev.2 ≠ [] then none
        else Runtime.finish (s.head? == some '-') (Decimal.value (d1 ++ d2))
          (-(d2.length : Int) + es * ev.1) p)
    by_cases hbad : d1 ++ d2 = [] ∨ ev.2 ≠ []
    · rw [if_pos hbad, if_pos hbad]
      exact trivial
    · rw [if_neg hbad, if_neg hbad]
      have hsign : (if (s.head? == some '-') = true then (-1 : Int) else 1) = 1 ∨
          (if (s.head? == some '-') = true then (-1 : Int) else 1) = -1 := by
        split_ifs
        · exact .inr rfl
        · exact .inl rfl
      have hneg : decide ((if (s.head? == some '-') = true then (-1 : Int) else 1) < 0) =
          (s.head? == some '-') := by
        cases s.head? == some '-' <;> rfl
      have href := fromLimbs_refines hnorm.digits (by omega) hsign
        (-(d2.length : Int) + es * ev.1) p
      rw [hval, hneg] at href
      exact href.agrees

/-! ## Printing -/

theorem trailZeros_spec (cd : Str) (n : Nat) : n ≤ cd.length →
    trailZeros cd n ≤ n ∧ cd.take n = cd.take (trailZeros cd n) ++ zeros (n - trailZeros cd n) := by
  induction n with
  | zero =>
    intro _
    exact ⟨Nat.le_refl 0, by simp [trailZeros, zeros]⟩
  | succ n ih =>
    intro hn
    obtain ⟨h1, h2⟩ := ih (by omega)
    unfold trailZeros
    by_cases hc : cd.getD n '0' = '0'
    · have hlt : n < cd.length := by omega
      have hget : cd[n] = '0' := by
        rw [List.getD_eq_getElem _ _ hlt] at hc
        exact hc
      rw [if_pos hc]
      refine ⟨by omega, ?_⟩
      rw [List.take_succ_eq_append_getElem (by omega), h2, hget, List.append_assoc,
        show n + 1 - trailZeros cd n = (n - trailZeros cd n) + 1 by omega]
      congr 1
      exact List.replicate_succ'.symm
    · rw [if_neg hc, Nat.sub_self]
      exact ⟨Nat.le_refl _, (List.append_nil _).symm⟩

theorem length_putDigits (cd : Str) (nd i stop : Nat) : (putDigits cd nd i stop).length = stop - i := by
  rw [putDigits, List.length_map, List.length_range']

theorem putDigits_append (cd : Str) (nd : Nat) {i j k : Nat} (hij : i ≤ j) (hjk : j ≤ k) :
    putDigits cd nd i j ++ putDigits cd nd j k = putDigits cd nd i k := by
  have happend := @List.range'_append_1 i (j - i) (k - j)
  rw [show i + (j - i) = j by omega, show j - i + (k - j) = k - i by omega] at happend
  rw [putDigits, putDigits, putDigits, ← List.map_append, happend]

theorem allDigits_putDigits {cd : Str} (hcd : AllDigits cd) (nd i stop : Nat) :
    AllDigits (putDigits cd nd i stop) := by
  intro c hc
  obtain ⟨j, -, rfl⟩ := List.mem_map.1 hc
  unfold digAt
  split_ifs
  · by_cases hlt : j < cd.length
    · rw [List.getD_eq_getElem _ _ hlt]
      exact hcd _ (List.getElem_mem hlt)
    · rw [List.getD_eq_default _ _ (by omega)]
      rfl
  · rfl

/-- The first `k` digits are those of the coefficient, with zeros behind them. -/
theorem putDigits_zero (cd : Str) (k : Nat) :
    putDigits cd cd.length 0 k = cd.take k ++ zeros (k - cd.length) := by
  show (List.range' 0 (k - 0)).map (digAt cd cd.length) =
    cd.take k ++ List.replicate (k - cd.length) '0'
  apply List.ext_getElem
  · rw [List.length_map, List.length_range', List.length_append, List.length_take,
      List.length_replicate]
    omega
  · intro i hi hi'
    rw [List.getElem_map, List.getElem_range', Nat.zero_add, Nat.one_mul, digAt]
    by_cases hlt : i < cd.length
    · have hik : i < k := by
        rw [List.length_map, List.length_range'] at hi
        omega
      rw [if_pos hlt, List.getD_eq_getElem _ _ hlt,
        List.getElem_append_left (by rw [List.length_take]; omega), List.getElem_take]
    · rw [if_neg hlt, List.getElem_append_right (by rw [List.length_take]; omega),
        List.getElem_replicate]

/-- Digits printed far enough denote the coefficient. -/
theorem value_putDigits (cd : Str) {k : Nat} (hk : trailZeros cd cd.length ≤ k) :
    Decimal.value (putDigits cd cd.length 0 k) * 10 ^ (cd.length - k) =
      Decimal.value cd * 10 ^ (k - cd.length) := by
  rw [putDigits_zero]
  by_cases hle : k ≤ cd.length
  · obtain ⟨h1, h2⟩ := trailZeros_spec cd cd.length (Nat.le_refl _)
    obtain ⟨m, hm⟩ : ∃ m, trailZeros cd cd.length = m := ⟨_, rfl⟩
    rw [hm] at h1 h2 hk
    rw [List.take_length] at h2
    -- what is left of the zeros after the first `k` digits
    have htake : cd.take k = cd.take m ++ zeros (k - m) := by
      have hlen : (cd.take m).length = m := by
        rw [List.length_take]
        omega
      conv_lhs => rw [h2]
      rw [List.take_append, hlen, List.take_of_length_le (by omega)]
      rw [zeros, List.take_replicate, Nat.min_eq_left (by omega), zeros]
    have hvk : Decimal.value (cd.take k) = Decimal.value (cd.take m) * 10 ^ (k - m) := by
      rw [htake, value_append, value_zeros, length_zeros, Nat.add_zero]
    have hv : Decimal.value cd = Decimal.value (cd.take m) * 10 ^ (cd.length - m) := by
      conv_lhs => rw [h2]
      rw [value_append, value_zeros, length_zeros, Nat.add_zero]
    rw [show k - cd.length = 0 by omega, Nat.pow_zero, Nat.mul_one, zeros, List.replicate_zero,
      List.append_nil, hvk, hv, Nat.mul_assoc, ← Nat.pow_add]
    congr 2
    omega
  · rw [show cd.length - k = 0 by omega, Nat.pow_zero, Nat.mul_one, List.take_of_length_le (by omega),
      value_append, value_zeros, length_zeros, Nat.add_zero]

theorem trailZeros_pos {cd : Str} (h : Decimal.value cd ≠ 0) : 0 < trailZeros cd cd.length := by
  obtain ⟨-, h2⟩ := trailZeros_spec cd cd.length (Nat.le_refl _)
  by_contra hzero
  rw [show trailZeros cd cd.length = 0 by omega, List.take_zero, List.nil_append, List.take_length] at h2
  apply h
  rw [h2, value_zeros]

/-- Moving zeros between coefficient and exponent changes nothing. -/
theorem finish_shift (neg : Bool) {c d i j : Nat} (h : d * 10 ^ i = c * 10 ^ j) (e : Int) (p : Prec) :
    Runtime.finish neg d e p = Runtime.finish neg c (e - i + j) p := by
  rw [← finish_mul_pow, ← h, finish_mul_pow, Int.sub_add_cancel]

theorem lastDigit_cases (trim : Bool) (ipos : Int) (m n : Nat) :
    lastDigit trim ipos m n = m ∨ (0 < ipos ∧ m ≤ ipos ∧ lastDigit trim ipos m n = ipos.toNat) ∨
      lastDigit trim ipos m n = n := by
  unfold lastDigit
  split_ifs
  · exact .inl rfl
  · exact .inr (.inl ⟨by omega, by omega, rfl⟩)
  · exact .inl rfl
  · exact .inr (.inr rfl)

/-- What a text says of a value: its parts, and the number they finish to. -/
structure IsText (v : Block) (s ds fs : Str) : Prop where
  parts : NumberParts ds fs
  text : s = signText v.neg ++ (ds ++ pointed fs)
  short : ds.length + fs.length ≤ 8589934592
  number : ∀ p, Runtime.finish v.neg (Decimal.value (ds ++ fs)) (-(fs.length : Int)) p =
    Runtime.finish v.neg (val v.limbs) v.exp p

theorem allDigits_zero_char : AllDigits ['0'] := allDigits_zeros 1

theorem format_zero (h : v.Valid) (hs : v.sign = 0) (trim : Bool) :
    ∃ ds fs, IsText v (format v trim) ds fs := by
  have hneg : v.neg = false := by
    unfold Block.neg
    rw [hs]
    rfl
  have hval : val v.limbs = 0 := by
    rw [h.eq_dzero hs]
    rfl
  have hp := h.prec
  unfold format
  simp only [if_pos hs]
  cases trim with
  | true =>
    refine ⟨['0'], [], ⟨allDigits_zero_char, List.cons_ne_nil _ _, fun c hc => nomatch hc⟩, ?_, ?_, ?_⟩
    · rw [hneg]
      rfl
    · exact (by decide : 1 + 0 ≤ 8589934592)
    · intro p
      rw [hval]
      rfl
  | false =>
    have hne : zeros v.prec ≠ [] := by
      intro hnil
      have hlen := congrArg List.length hnil
      rw [length_zeros, List.length_nil] at hlen
      omega
    refine ⟨['0'], zeros v.prec, ⟨allDigits_zero_char, List.cons_ne_nil _ _, allDigits_zeros _⟩,
      ?_, ?_, ?_⟩
    · rw [hneg, pointed, if_neg hne]
      rfl
    · rw [length_zeros, List.length_singleton]
      omega
    · intro p
      rw [hval, value_append, value_zeros, value_singleton, show digitOf '0' = 0 from rfl,
        Nat.zero_mul, Nat.add_zero]
      rfl

/-- Every layout of a nonzero value says the value. -/
theorem format_nonzero (h : v.Valid) (hs : v.sign ≠ 0) (trim : Bool) :
    ∃ ds fs, IsText v (format v trim) ds fs := by
  obtain ⟨hcd, hlen, hval⟩ := coefDigits_spec h hs
  have hc := h.val_ne_zero hs
  have hfits := h.fits
  have hp := h.prec
  obtain ⟨helo, hehi⟩ := h.exp_fits
  unfold format
  simp only [if_neg hs]
  rw [← hlen]
  generalize coefDigits v = cd at hcd hlen hval ⊢
  rw [← hval] at hc
  have hmpos := trailZeros_pos hc
  obtain ⟨hmle, -⟩ := trailZeros_spec cd cd.length (Nat.le_refl _)
  obtain ⟨ipos, hipos⟩ : ∃ ipos : Int, ipos = (cd.length : Int) + v.exp := ⟨_, rfl⟩
  have hlast := lastDigit_cases trim ipos (trailZeros cd cd.length) v.prec
  rw [← hipos]
  generalize lastDigit trim ipos (trailZeros cd cd.length) v.prec = last at hlast ⊢
  by_cases hpos : ipos > 0
  · rw [if_pos hpos]
    obtain ⟨i, hi⟩ : ∃ i : Nat, ipos = i := ⟨ipos.toNat, by omega⟩
    rw [hi, Int.toNat_natCast]
    rw [hi] at hlast hpos hipos
    have hne : putDigits cd cd.length 0 i ≠ [] := by
      intro hnil
      have hl := congrArg List.length hnil
      rw [length_putDigits, List.length_nil] at hl
      omega
    by_cases hge : i ≥ last
    · -- whole digits only
      have hnum := value_putDigits cd (k := i) (by omega)
      refine ⟨putDigits cd cd.length 0 i, [],
        ⟨allDigits_putDigits hcd _ _ _, hne, fun c hc => nomatch hc⟩, ?_, ?_, ?_⟩
      · rw [fmtInt, if_pos hge]
        rfl
      · rw [length_putDigits, List.length_nil]
        omega
      · intro p
        rw [List.append_nil, finish_shift v.neg hnum, hval]
        congr 1
        rw [List.length_nil]
        omega
    · -- digits on both sides of the point
      have hnum := value_putDigits cd (k := last) (by omega)
      have hfne : putDigits cd cd.length i last ≠ [] := by
        intro hnil
        have hl := congrArg List.length hnil
        rw [length_putDigits, List.length_nil] at hl
        omega
      refine ⟨putDigits cd cd.length 0 i, putDigits cd cd.length i last,
        ⟨allDigits_putDigits hcd _ _ _, hne, allDigits_putDigits hcd _ _ _⟩, ?_, ?_, ?_⟩
      · rw [fmtInt, if_neg hge, pointed, if_neg hfne]
      · rw [length_putDigits, length_putDigits]
        omega
      · intro p
        rw [putDigits_append cd _ (Nat.zero_le i) (by omega), finish_shift v.neg hnum, hval,
          length_putDigits]
        congr 1
        omega
  · -- zeros between the point and the digits
    rw [if_neg hpos]
    have hnum := value_putDigits cd (k := last) (by omega)
    have hfne : zeros (-ipos).toNat ++ putDigits cd cd.length 0 last ≠ [] := by
      intro hnil
      have hl := congrArg List.length hnil
      rw [List.length_append, length_putDigits, List.length_nil] at hl
      omega
    refine ⟨['0'], zeros (-ipos).toNat ++ putDigits cd cd.length 0 last,
      ⟨allDigits_zero_char, List.cons_ne_nil _ _,
        (allDigits_zeros _).append (allDigits_putDigits hcd _ _ _)⟩, ?_, ?_, ?_⟩
    · rw [fmtFrac, pointed, if_neg hfne]
      rfl
    · rw [List.length_append, length_zeros, length_putDigits, List.length_singleton]
      omega
    · intro p
      have hzero : Decimal.value (['0'] ++ (zeros (-ipos).toNat ++ putDigits cd cd.length 0 last)) =
          Decimal.value (putDigits cd cd.length 0 last) := by
        rw [value_append, value_append, value_zeros, value_singleton, show digitOf '0' = 0 from rfl,
          Nat.zero_mul, Nat.zero_mul, Nat.zero_add, Nat.zero_add]
      rw [hzero, finish_shift v.neg hnum, hval, List.length_append, length_zeros, length_putDigits]
      congr 1
      omega

/-- A value in range finishes to itself. -/
theorem finish_of_denotes {p : Prec} {d : Dec p} (h : v.Denotes d) :
    Runtime.finish v.neg (val v.limbs) v.exp p = some d := by
  cases d with
  | zero =>
    rw [h]
    rfl
  | num d =>
    obtain ⟨hvalid, hprec, hsign, hdigits, hexp⟩ := h
    have hfits := hvalid.fits
    have hneg : v.neg = d.neg := by
      unfold Block.neg
      rw [hsign]
      cases d.neg <;> rfl
    have hself := finish_self d
    rw [hdigits, finish_mul_pow] at hself
    rw [hneg, show v.exp = d.exp + (p.val - v.nd : Nat) by omega]
    exact hself

theorem length_text_lt {ds fs : Str} (h : IsText v s ds fs) : s.length < 1099511627776 := by
  have hshort := h.short
  have hsign : (signText v.neg).length ≤ 1 := by
    cases v.neg
    · exact Nat.zero_le 1
    · exact Nat.le_refl 1
  have hpoint : (pointed fs).length ≤ fs.length + 1 := by
    unfold pointed
    split_ifs
    · exact Nat.zero_le _
    · exact Nat.le_refl _
  rw [h.text, List.length_append, List.length_append]
  omega

/-- Reading back a printed value yields an equal value. -/
theorem fromStr_format_eq {v : Block} (h : v.Valid) (trim : Bool) :
    ∃ w, fromStr (format v trim) v.prec = .ok w ∧ w.Valid ∧ w.prec = v.prec ∧ w.value = v.value ∧
      cmpV w v = 0 := by
  obtain ⟨ds, fs, htext⟩ : ∃ ds fs, IsText v (format v trim) ds fs := by
    by_cases hs : v.sign = 0
    · exact format_zero h hs trim
    · exact format_nonzero h hs trim
  obtain ⟨d, hd⟩ := h.denotes
  have hread := @fromStr_parts v.neg ds fs htext.parts ⟨v.prec, h.prec⟩
  rw [← htext.text, htext.number, finish_of_denotes hd] at hread
  have hagrees := fromStr_agrees (length_text_lt htext) ⟨v.prec, h.prec⟩
  rw [hread] at hagrees
  cases hres : fromStr (format v trim) v.prec with
  | error m =>
    rw [hres] at hagrees
    exact hagrees.elim
  | ok w =>
    rw [hres] at hagrees
    obtain ⟨hvalid, hprec, hvalue⟩ := Block.Denotes.value_eq hagrees
    obtain ⟨-, -, hvalue'⟩ := Block.Denotes.value_eq hd
    have heq : w.value = v.value := hvalue.trans hvalue'.symm
    exact ⟨w, rfl, hvalid, hprec, heq, (cmpV_eq_zero hvalid h).2 heq⟩

/-- `-1.200` of five digits, trimmed. -/
theorem fromStr_format_eq_trimmed :
    ∃ w, fromStr (format ⟨-1, 5, -3, [1200], ndig [1200]⟩ true) 5 = .ok w ∧ w.Valid ∧ w.prec = 5 ∧
      w.value = (Block.mk (-1) 5 (-3) [1200] (ndig [1200])).value ∧
      cmpV w ⟨-1, 5, -3, [1200], ndig [1200]⟩ = 0 :=
  fromStr_format_eq (valid_limb (.inr rfl) (by decide +kernel)) true

end Decimals
