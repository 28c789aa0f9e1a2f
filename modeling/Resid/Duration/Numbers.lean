import Resid.Duration.RoundTrip

/-!
# The numbers of a span's text

A number is what the scanner takes for one, digits with at most one point among them.
What its scan and its span come to is said here for numbers of any length, with the
64 bits they may not fit.

    scanNumber at num = num.scan if its whole part fits, else none     (scanNumber_number)
    scanSpan num.scan u = its length in u if that fits, else none      (scanSpan_scan)
    spanAdd of two lengths = their sum if that fits, else none         (spanAdd_checked)
    PairFits t p → (FitFrom t (p :: ps) ↔ FitFrom (t + p) ps)          (fitFrom_cons_of_fits)
-/

namespace Duration

open CheckedInt Calendar Decimal Runtime

/-! ## Numbers as they are written -/

/-- Digits, and behind a point, if there is one, more digits. -/
@[ext]
structure Number where
  whole : List Char
  frac : Option (List Char)
  digits : AllDigits (whole ++ frac.getD [])
  ne_nil : whole ++ frac.getD [] ≠ []

namespace Number

/-- The digits behind the point. -/
def fracDigits (num : Number) : List Char := num.frac.getD []

def text (num : Number) : Str :=
  num.whole ++ match num.frac with
    | none => []
    | some fs => '.' :: fs

/-- What the scanner makes of it. -/
def scan (num : Number) : Scan :=
  ⟨value num.whole, digitInts num.fracDigits, num.frac.isSome, false, true⟩

theorem whole_digits (num : Number) : AllDigits num.whole :=
  fun c hc => num.digits c (List.mem_append_left _ hc)

theorem frac_digits (num : Number) : AllDigits num.fracDigits :=
  fun c hc => num.digits c (List.mem_append_right _ hc)

end Number

/-- The digits a text starts with. -/
def wholeOf (r : Str) : List Char := r.takeWhile Char.isDigit

/-- The digits behind a point that follows them. -/
def fracOf (r : Str) : Option (List Char) :=
  match r.dropWhile Char.isDigit with
  | [] => none
  | c :: t => if c = '.' then some (t.takeWhile Char.isDigit) else none

/-- The first character that is no digit. -/
theorem dropWhile_digit_head {r t : Str} {c : Char} (h : r.dropWhile Char.isDigit = c :: t) :
    c.isDigit = false := by
  have hne : r.dropWhile Char.isDigit ≠ [] := by
    rw [h]
    exact List.cons_ne_nil c t
  have hhead := List.head_dropWhile_not Char.isDigit hne
  simpa only [h, List.head_cons] using hhead

/-- Behind the digits comes the end of the number or a point with digits of its own. -/
theorem fracOf_cases (r : Str) :
    (fracOf r = none ∧ Stops (r.dropWhile Char.isDigit)) ∨
      ∃ t, r.dropWhile Char.isDigit = '.' :: t ∧
        fracOf r = some (t.takeWhile Char.isDigit) := by
  unfold fracOf
  cases hd : r.dropWhile Char.isDigit with
  | nil => exact Or.inl ⟨rfl, fun _ _ h => by cases h⟩
  | cons c t =>
    dsimp only
    by_cases hc : c = '.'
    · right
      rw [if_pos hc, hc]
      exact ⟨t, rfl, rfl⟩
    · left
      rw [if_neg hc]
      exact ⟨rfl, stops_cons (dropWhile_digit_head hd) hc⟩

theorem fracOf_digits (r : Str) : AllDigits ((fracOf r).getD []) := by
  rcases fracOf_cases r with ⟨h, -⟩ | ⟨t, -, h⟩
  · rw [h]
    exact fun _ hc => absurd hc List.not_mem_nil
  · rw [h]
    exact allDigits_takeWhile t

/-- The number a text starts with, when there is a digit in it. -/
def numberOf (r : Str) : Option Number :=
  if h : wholeOf r ++ (fracOf r).getD [] ≠ [] then
    some ⟨wholeOf r, fracOf r, (allDigits_takeWhile r).append (fracOf_digits r), h⟩
  else none

theorem numberOf_some {r : Str} {num : Number} (h : numberOf r = some num) :
    num.whole = wholeOf r ∧ num.frac = fracOf r := by
  unfold numberOf at h
  split at h
  · cases h
    exact ⟨rfl, rfl⟩
  · cases h

theorem numberOf_none {r : Str} (h : numberOf r = none) :
    wholeOf r = [] ∧ (fracOf r).getD [] = [] := by
  unfold numberOf at h
  split at h
  · cases h
  · next hnil => exact List.append_eq_nil_iff.1 (not_not.1 hnil)

/-- What is left behind the number. -/
theorem numberOf_rest {r : Str} {num : Number} (h : numberOf r = some num) :
    ∃ rest, r = num.text ++ rest := by
  obtain ⟨hwhole, hfrac⟩ := numberOf_some h
  have hsplit : wholeOf r ++ r.dropWhile Char.isDigit = r := List.takeWhile_append_dropWhile
  unfold Number.text
  rw [hwhole, hfrac]
  rcases fracOf_cases r with ⟨hf, -⟩ | ⟨t, hd, hf⟩
  · rw [hf, List.append_nil]
    exact ⟨_, hsplit.symm⟩
  · refine ⟨t.dropWhile Char.isDigit, ?_⟩
    rw [hf, List.append_assoc, List.cons_append, List.takeWhile_append_dropWhile, ← hd, hsplit]

/-! ## Scanning a number that may not fit -/

section Scanning

variable {s : Str}

/-- The digit that takes the whole part out of 64 bits. -/
theorem scanDigit_overflow {w d : Nat} {c : Int} (any : Bool) (hc : c - 48 = d) (hd : d ≤ 9)
    (h : 9223372036854775808 ≤ w * 10 + d) :
    scanDigit ⟨w, [], false, false, any⟩ c = none := by
  have hsub : sub 64 c 48 = some (d : Int) := by
    rw [sub_of_fits (by rw [fits_64]; omega), hc]
  unfold scanDigit
  simp only [Option.bind_eq_bind]
  rw [bind_of_eq hsub, if_neg Bool.false_ne_true]
  by_cases hmul : Fits 64 ((w : Int) * 10)
  · have hadd : ¬ Fits 64 ((w : Int) * 10 + d) := by
      rw [fits_64]
      omega
    rw [bind_of_eq (mul_of_fits hmul), add_of_not_fits hadd]
    exact Option.bind_none _
  · rw [mul_of_not_fits hmul]
    exact Option.bind_none _

/-- The induction is on the digits left; the first one too many ends the scan. -/
theorem scanNumber_overflow (ds : List Char) (w : Nat) (any : Bool) {rest : Str} {i : Nat}
    (hds : AllDigits ds) (h : s.drop i = ds ++ rest) (hw : w < 9223372036854775808)
    (hover : 9223372036854775808 ≤ w * 10 ^ ds.length + value ds) :
    scanNumber s i ⟨w, [], false, false, any⟩ = none := by
  induction ds generalizing i w any with
  | nil =>
    rw [List.length_nil, Nat.pow_zero, Nat.mul_one] at hover
    have hzero : value [] = 0 := rfl
    omega
  | cons c ds ih =>
    have hc := hds c List.mem_cons_self
    have hrest : AllDigits ds := fun x hx => hds x (List.mem_cons_of_mem c hx)
    have hcode := digit_code hc
    have hdig : digitOf c ≤ 9 := by omega
    by_cases hstep : w * 10 + digitOf c < 9223372036854775808
    · have hacc := scanDigit_whole (w := w) any hcode.2 (by rw [fits_64]; omega)
        (by rw [fits_64]; omega) (by rw [fits_64]; omega)
      rw [scanNumber_digit h hc hacc]
      refine ih _ true hrest (drop_succ_of_drop h) hstep ?_
      rw [value_cons, List.length_cons, Nat.pow_succ] at hover
      have hring : w * (10 ^ ds.length * 10) + (digitOf c * 10 ^ ds.length + value ds) =
          (w * 10 + digitOf c) * 10 ^ ds.length + value ds := by ring
      rwa [hring] at hover
    · have hlt := lt_of_drop h
      have hnone := scanDigit_overflow any hcode.2 hdig (Nat.le_of_not_lt hstep)
      rw [scanNumber, if_neg (by omega), strCharAt_of_drop h, if_pos hcode.1, hnone]
      rfl

/-- Behind the digits after a point nothing more is read, be it another point. -/
theorem scanNumber_dot_stop {i : Nat} {w : Int} {fs : List Int} {any : Bool}
    (h : ∀ c r, s.drop i = c :: r → c.isDigit = false) :
    scanNumber s i ⟨w, fs, true, false, any⟩ = some ⟨w, fs, true, false, any⟩ := by
  rw [scanNumber]
  cases hd : s.drop i with
  | nil => rw [if_pos (strLen_le_of_drop hd)]
  | cons c r =>
    have hlt := lt_of_drop hd
    rw [if_neg (by omega), strCharAt_of_drop hd, if_neg (not_digit_code (h c r hd)),
      if_neg fun hb => Bool.noConfusion hb.2]

theorem scanNumberEndAt_dot_stop {i : Nat} (h : ∀ c r, s.drop i = c :: r → c.isDigit = false) :
    scanNumberEndAt s i true = i := by
  rw [scanNumberEndAt]
  cases hd : s.drop i with
  | nil => rw [if_pos (strLen_le_of_drop hd)]
  | cons c r =>
    have hlt := lt_of_drop hd
    rw [if_neg (by omega), strCharAt_of_drop hd, if_neg (not_digit_code (h c r hd)),
      if_neg fun hb => Bool.noConfusion hb.2]

/-- A scan from the start of a text: the whole digits, the point, the digits behind it. -/
theorem scanNumber_parts (s : Str) (i : Nat)
    (hfit : value (wholeOf (s.drop i)) < 9223372036854775808) :
    scanNumber s i scanNew = some ⟨value (wholeOf (s.drop i)),
      digitInts ((fracOf (s.drop i)).getD []), (fracOf (s.drop i)).isSome, false,
      !(wholeOf (s.drop i) ++ (fracOf (s.drop i)).getD []).isEmpty⟩ := by
  have hdrop : s.drop i = wholeOf (s.drop i) ++ (s.drop i).dropWhile Char.isDigit :=
    List.takeWhile_append_dropWhile.symm
  have hrest := drop_add_of_drop hdrop
  have hwhole := scanNumber_whole (wholeOf (s.drop i)) 0 false (allDigits_takeWhile _) hdrop
    (by omega)
  rw [Nat.zero_mul, Nat.zero_add] at hwhole
  refine hwhole.trans ?_
  rcases fracOf_cases (s.drop i) with ⟨hf, hstops⟩ | ⟨t, hd, hf⟩
  · rw [scanNumber_stop (by rw [hrest]; exact hstops), hf]
    simp [digitInts]
  · rw [hd] at hrest
    have hlt := lt_of_drop hrest
    have hsplit := (drop_succ_of_drop hrest).trans
      (List.takeWhile_append_dropWhile (p := Char.isDigit) (l := t)).symm
    have hend := drop_add_of_drop hsplit
    rw [scanNumber, if_neg (by omega), strCharAt_of_drop hrest, if_neg (by decide),
      if_pos ⟨rfl, rfl⟩, scanPoint, scanNumber_frac _ (allDigits_takeWhile t) hsplit,
      scanNumber_dot_stop fun c r hcr => dropWhile_digit_head (hend.symm.trans hcr), hf]
    cases wholeOf (s.drop i) <;> rfl

/-- The scan of a number: what it is worth, or an overflow of its whole part. -/
theorem scanNumber_number {i : Nat} {num : Number} (h : numberOf (s.drop i) = some num) :
    scanNumber s i scanNew =
      if value num.whole < 9223372036854775808 then some num.scan else none := by
  obtain ⟨hwhole, hfrac⟩ := numberOf_some h
  have hne := num.ne_nil
  unfold Number.scan Number.fracDigits
  rw [hwhole, hfrac] at hne ⊢
  by_cases hfit : value (wholeOf (s.drop i)) < 9223372036854775808
  · rw [if_pos hfit, scanNumber_parts s i hfit, List.isEmpty_eq_false_iff.2 hne]
    rfl
  · rw [if_neg hfit]
    refine scanNumber_overflow (wholeOf (s.drop i)) 0 false (allDigits_takeWhile _)
      List.takeWhile_append_dropWhile.symm (by decide) ?_
    omega

/-- Where no number starts the scan has no digit. -/
theorem scanNumber_no_number {i : Nat} (h : numberOf (s.drop i) = none) :
    ∃ acc, scanNumber s i scanNew = some acc ∧ acc.any = false := by
  obtain ⟨hwhole, hfrac⟩ := numberOf_none h
  have hzero : value (wholeOf (s.drop i)) = 0 := by
    rw [hwhole]
    rfl
  refine ⟨_, scanNumber_parts s i (by omega), ?_⟩
  dsimp only
  rw [hwhole, hfrac]
  rfl

theorem scanNumberEnd_number {i : Nat} {num : Number} (h : numberOf (s.drop i) = some num) :
    scanNumberEnd s i = i + num.text.length := by
  obtain ⟨hwhole, hfrac⟩ := numberOf_some h
  have hdrop : s.drop i = wholeOf (s.drop i) ++ (s.drop i).dropWhile Char.isDigit :=
    List.takeWhile_append_dropWhile.symm
  have hrest := drop_add_of_drop hdrop
  unfold Number.text
  rw [hwhole, hfrac, scanNumberEnd, scanNumberEndAt_digits _ (allDigits_takeWhile _) hdrop]
  rcases fracOf_cases (s.drop i) with ⟨hf, hstops⟩ | ⟨t, hd, hf⟩
  · rw [← wholeOf, scanNumberEndAt_stop (by rw [hrest]; exact hstops), hf, List.append_nil]
  · rw [hd] at hrest
    have hlt := lt_of_drop hrest
    have hsplit := (drop_succ_of_drop hrest).trans
      (List.takeWhile_append_dropWhile (p := Char.isDigit) (l := t)).symm
    have hend := drop_add_of_drop hsplit
    rw [← wholeOf, scanNumberEndAt, if_neg (by omega), strCharAt_of_drop hrest,
      if_neg (by decide), if_pos ⟨rfl, rfl⟩,
      scanNumberEndAt_digits _ (allDigits_takeWhile t) hsplit,
      scanNumberEndAt_dot_stop fun c r hcr => dropWhile_digit_head (hend.symm.trans hcr), hf]
    simp only [List.length_append, List.length_cons]
    omega

end Scanning

theorem takeWhile_digits {ds : List Char} (hds : AllDigits ds) (rest : Str)
    (hrest : ∀ c r, rest = c :: r → c.isDigit = false) :
    (ds ++ rest).takeWhile Char.isDigit = ds ∧ (ds ++ rest).dropWhile Char.isDigit = rest := by
  rw [List.takeWhile_append_of_pos hds, List.dropWhile_append_of_pos hds]
  cases rest with
  | nil => simp
  | cons c r => simp [hrest c r rfl]

/-- A number is read back from its text, whatever ends it. -/
theorem numberOf_text (num : Number) {rest : Str} (hrest : Stops rest) :
    numberOf (num.text ++ rest) = some num := by
  have hdigit : ∀ c r, rest = c :: r → c.isDigit = false := fun c r h => (hrest c r h).1
  have hparts : wholeOf (num.text ++ rest) = num.whole ∧
      fracOf (num.text ++ rest) = num.frac := by
    unfold Number.text wholeOf fracOf
    cases hf : num.frac with
    | none =>
      rw [List.append_nil]
      obtain ⟨htake, hdrop⟩ := takeWhile_digits num.whole_digits _ hdigit
      rw [htake, hdrop]
      refine ⟨rfl, ?_⟩
      cases rest with
      | nil => rfl
      | cons c r => exact if_neg (hrest c r rfl).2
    | some fs =>
      have hfs : AllDigits fs := by
        have h := num.frac_digits
        rwa [Number.fracDigits, hf] at h
      rw [List.append_assoc, List.cons_append]
      obtain ⟨htake, hdrop⟩ := takeWhile_digits num.whole_digits ('.' :: (fs ++ rest))
        fun c r h => by cases h; rfl
      rw [htake, hdrop]
      refine ⟨rfl, ?_⟩
      show (if '.' = '.' then some ((fs ++ rest).takeWhile Char.isDigit) else none) = some fs
      rw [if_pos rfl, (takeWhile_digits hfs _ hdigit).1]
  unfold numberOf
  rw [dif_pos (by rw [hparts.1, hparts.2]; exact num.ne_nil)]
  exact congrArg some (Number.ext hparts.1 hparts.2)

/-! ## The length of a number -/

/-- The digits behind the point, each in the tenth part of the unit before it. -/
def fracLength : List Char → Nat → Nat
  | [], _ => 0
  | d :: ds, scale => digitOf d * (scale / 10) + fracLength ds (scale / 10)

theorem digitOf_le {c : Char} (h : c.isDigit = true) : digitOf c ≤ 9 := by
  have hc := (isDigit_iff c).1 h
  unfold digitOf
  omega

theorem fracLength_le {ds : List Char} (hds : AllDigits ds) (scale : Nat) :
    fracLength ds scale ≤ scale := by
  induction ds generalizing scale with
  | nil => exact Nat.zero_le _
  | cons d ds ih =>
    have hd := digitOf_le (hds d List.mem_cons_self)
    have hrest := ih (fun x hx => hds x (List.mem_cons_of_mem d hx)) (scale / 10)
    have hmul : digitOf d * (scale / 10) ≤ 9 * (scale / 10) := Nat.mul_le_mul_right _ hd
    rw [fracLength]
    omega

/-- The digits behind a point never overflow, however many they are. -/
theorem fracNanos_eq {ds : List Char} (hds : AllDigits ds) {scale : Nat}
    (h : scale < 9223372036854775808) :
    fracNanos (digitInts ds) scale = some (fracLength ds scale : Int) := by
  induction ds generalizing scale with
  | nil => rfl
  | cons d ds ih =>
    have hd := digitOf_le (hds d List.mem_cons_self)
    have hds' : AllDigits ds := fun x hx => hds x (List.mem_cons_of_mem d hx)
    have hall := fracLength_le hds scale
    rw [fracLength] at hall
    have hstep : div 64 (scale : Int) 10 = some ((scale / 10 : Nat) : Int) := by
      rw [div_of_nonneg (by omega) (by decide) (by rw [fits_64]; omega), Int.natCast_ediv]
      rfl
    have hmul : mul 64 (digitOf d : Int) ((scale / 10 : Nat) : Int) =
        some ((digitOf d * (scale / 10) : Nat) : Int) := by
      rw [Int.natCast_mul, mul_of_fits]
      rw [← Int.natCast_mul, fits_64]
      omega
    have hadd : add 64 ((digitOf d * (scale / 10) : Nat) : Int) (fracLength ds (scale / 10)) =
        some ((digitOf d * (scale / 10) + fracLength ds (scale / 10) : Nat) : Int) := by
      rw [Int.natCast_add, add_of_fits]
      rw [← Int.natCast_add, fits_64]
      omega
    have hdig : digitInts (d :: ds) = (digitOf d : Int) :: digitInts ds := rfl
    rw [hdig, fracNanos]
    simp only [Option.bind_eq_bind]
    rw [bind_of_eq hstep, bind_of_eq hmul, bind_of_eq (ih hds' (by omega)), hadd, fracLength]

/-- The nanoseconds of a number of `unit`s. -/
def Number.length (num : Number) (unit : Nat) : Nat :=
  value num.whole * unit + fracLength num.fracDigits unit

theorem scanSpan_scan (num : Number) {unit : Nat} (hunit : unit < 9223372036854775808) :
    scanSpan num.scan unit =
      if num.length unit < 9223372036854775808 then some (ofTotal (num.length unit)) else none := by
  have hpart := fracNanos_eq num.frac_digits hunit
  have hle := fracLength_le num.frac_digits unit
  unfold Number.length scanSpan Number.scan
  simp only [Option.bind_eq_bind]
  by_cases hmul : value num.whole * unit < 9223372036854775808
  · have hwhole : mul 64 (value num.whole : Int) unit =
        some ((value num.whole * unit : Nat) : Int) := by
      rw [Int.natCast_mul, mul_of_fits]
      rw [← Int.natCast_mul, fits_64]
      omega
    rw [bind_of_eq hwhole, bind_of_eq hpart]
    by_cases hsum : value num.whole * unit + fracLength num.fracDigits unit < 9223372036854775808
    · rw [if_pos hsum, bind_of_eq (add_of_fits (by rw [fits_64]; omega)),
        if_neg Bool.false_ne_true, bind_of_eq rfl, ← Int.natCast_add]
      exact spanOfNanos_eq (by rw [fits_64]; omega)
    · rw [if_neg hsum, add_of_not_fits (by rw [fits_64]; omega)]
      exact Option.bind_none _
  · have hwhole : ¬ Fits 64 ((value num.whole : Int) * unit) := by
      rw [← Int.natCast_mul, fits_64]
      omega
    rw [mul_of_not_fits hwhole, if_neg (by omega)]
    exact Option.bind_none _

/-! ## Adding up -/

theorem floorToSpan_overflow {sec ns : Int} (hns : Fits 64 ns)
    (hs : ¬ Fits 64 (sec + ns / 1000000000)) : floorToSpan sec ns = none := by
  unfold floorToSpan
  rw [calFloorDiv_eq (by decide) hns, calFloorMod_eq (by decide) (by decide)]
  simp only [some_bind]
  rw [add_of_not_fits hs]
  rfl

/-- The sum of two lengths, or an overflow of its seconds. -/
theorem spanAdd_checked {a b : Nat} (ha : a < 9223372036854775808 * 1000000000)
    (hb : b < 9223372036854775808 * 1000000000) :
    spanAdd (ofTotal a) (ofTotal b) =
      if a + b < 9223372036854775808 * 1000000000 then some (ofTotal ((a + b : Nat) : Int))
      else none := by
  have hns : Fits 64 ((a : Int) % 1000000000 + b % 1000000000) := by
    rw [fits_64]
    omega
  by_cases h : a + b < 9223372036854775808 * 1000000000
  · rw [if_pos h, Int.natCast_add, spanAdd_ofTotal (by unfold SecFits; omega)
      (by rw [fits_64]; omega)]
  · rw [if_neg h]
    unfold spanAdd
    simp only [ofTotal_nanoseconds, ofTotal_seconds, Option.bind_eq_bind]
    rw [bind_of_eq (add_of_fits hns)]
    by_cases hs : Fits 64 ((a : Int) / 1000000000 + b / 1000000000)
    · rw [bind_of_eq (add_of_fits hs), floorToSpan_overflow hns (by rw [fits_64]; omega)]
    · rw [add_of_not_fits hs]
      rfl

/-- A length whose seconds fit. -/
def InBound (t : Nat) : Prop := t < 9223372036854775808 * 1000000000

/-- A number as it was read and the nanoseconds of its unit. -/
structure Pair where
  num : Number
  unit : Nat

def Pair.length (p : Pair) : Nat := p.num.length p.unit

def lengths (ps : List Pair) : Nat := (ps.map Pair.length).sum

/-- One number fits 64 bits, so does its length, and so do the seconds behind a length `t`. -/
structure PairFits (t : Nat) (p : Pair) : Prop where
  digits : value p.num.whole < 9223372036854775808
  span : p.length < 9223372036854775808
  sum : InBound (t + p.length)

instance (t : Nat) (p : Pair) : Decidable (PairFits t p) :=
  decidable_of_iff (value p.num.whole < 9223372036854775808 ∧ p.length < 9223372036854775808 ∧
      t + p.length < 9223372036854775808 * 1000000000)
    ⟨fun h => ⟨h.1, h.2.1, h.2.2⟩, fun h => ⟨h.digits, h.span, h.sum⟩⟩

/-- Scanning a number and adding its length up goes on when it fits and ends otherwise. -/
theorem addPair_bind {α : Type} {t : Nat} {p : Pair} (hunit : p.unit < 9223372036854775808)
    (ht : InBound t) (f : Span → Option α) :
    ((if value p.num.whole < 9223372036854775808 then some p.num.scan else none).bind fun read =>
      (scanSpan read p.unit).bind fun part => (spanAdd (ofTotal t) part).bind f) =
      if PairFits t p then f (ofTotal ((t + p.length : Nat) : Int)) else none := by
  by_cases hdigits : value p.num.whole < 9223372036854775808
  · rw [if_pos hdigits, bind_of_eq rfl, scanSpan_scan p.num hunit]
    by_cases hspan : p.num.length p.unit < 9223372036854775808
    · rw [if_pos hspan, bind_of_eq rfl, spanAdd_checked ht (by omega)]
      by_cases hsum : t + p.num.length p.unit < 9223372036854775808 * 1000000000
      · rw [if_pos hsum, if_pos ⟨hdigits, hspan, hsum⟩, bind_of_eq rfl]
        rfl
      · rw [if_neg hsum, if_neg fun h => hsum h.sum]
        rfl
    · rw [if_neg hspan, if_neg fun h => hspan h.span]
      rfl
  · rw [if_neg hdigits, if_neg fun h => hdigits h.digits]
    rfl

/-- Behind a length of `t` every number and every sum on the way still fits. -/
structure FitFrom (t : Nat) (ps : List Pair) : Prop where
  digits : ∀ p ∈ ps, value p.num.whole < 9223372036854775808
  spans : ∀ p ∈ ps, p.length < 9223372036854775808
  sum : InBound (t + lengths ps)

theorem fitFrom_nil {t : Nat} : FitFrom t [] ↔ InBound t :=
  ⟨FitFrom.sum, fun h => ⟨fun _ h => absurd h List.not_mem_nil,
    fun _ h => absurd h List.not_mem_nil, h⟩⟩

section Cons

variable {t : Nat} {p : Pair} {ps : List Pair}

theorem lengths_cons (t : Nat) (p : Pair) (ps : List Pair) :
    t + lengths (p :: ps) = t + p.length + lengths ps := by
  unfold lengths
  rw [List.map_cons, List.sum_cons, Nat.add_assoc]

theorem fitFrom_head (h : FitFrom t (p :: ps)) : PairFits t p := by
  refine ⟨h.digits p List.mem_cons_self, h.spans p List.mem_cons_self, ?_⟩
  have hsum := h.sum
  rw [lengths_cons] at hsum
  unfold InBound at hsum ⊢
  omega

theorem fitFrom_cons_of_fits (hp : PairFits t p) :
    FitFrom t (p :: ps) ↔ FitFrom (t + p.length) ps := by
  constructor
  · intro h
    refine ⟨fun q hq => h.digits q (List.mem_cons_of_mem p hq),
      fun q hq => h.spans q (List.mem_cons_of_mem p hq), ?_⟩
    rw [← lengths_cons]
    exact h.sum
  · intro h
    refine ⟨?_, ?_, ?_⟩
    · intro q hq
      rcases List.mem_cons.1 hq with rfl | hq
      · exact hp.digits
      · exact h.digits q hq
    · intro q hq
      rcases List.mem_cons.1 hq with rfl | hq
      · exact hp.span
      · exact h.spans q hq
    · rw [lengths_cons]
      exact h.sum

end Cons

end Duration
