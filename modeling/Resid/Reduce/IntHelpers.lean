import Resid.Reduce.KnownMap
import Resid.Runtime.Arith

/-!
# Integer helpers on known operands

The partial evaluator folds a `wrapping_`, `saturating_` or `checked_` call whose operands it knows:
it computes in 2048 bits and carries values below 2^1023 in magnitude.

    rdWbits x (tyText t) ≠ [] → rdWbits x (tyText t) = intText (t.wrap x)          (rdWbits_eq)
    rdBuiltinInt (helperName fl op signed) ts [v0, v1] = some (v, ty) →
      ∃ r, eval t fl op (rdW v0) (rdW v1) = some r ∧ v = intText r           (rdBuiltinInt_eval)

## Algorithm

Operands, types and results are texts.  A call that is not folded is `none`.
-/

namespace Reduce

open Runtime IntRange

/-! ## Types and values -/

/-- "Int" or "UInt" for an integer type name; nothing for anything else. -/
def rdIntHead (t : Str) : Str :=
  if t = "Int".toList ∨ t = "UInt".toList then t
  else if !strEndsWith t ")".toList then []
  else if strStartsWith t "Int(".toList then "Int".toList
  else if strStartsWith t "UInt(".toList then "UInt".toList
  else []

def rdIsIntTy (t : Str) : Bool := rdIntHead t != []

def rdIntSigned (t : Str) : Bool := rdIntHead t == "Int".toList

def rdIw (t : Str) : Int :=
  if t = "Int".toList ∨ t = "UInt".toList then 64
  else
    let h := rdIntHead t
    if h = [] then 0
    else
      let n := rdNormTy t
      if n = "Int".toList ∨ n = "UInt".toList then 64
      else
        let skip := if h = "UInt".toList then 5 else 4
        strParseInt (strSlice n skip (strLen n - 1))

def rdIty (head : Str) (w : Int) : Str :=
  if w = 64 then head else head ++ '(' :: intText w ++ [')']

/-- An Int and an Int(2048) print alike. -/
def rdWtoa (x : Int) : Str := intText x

def rdWlim : Int := 2 ^ 1023

def rdCarried (x : Int) : Bool := decide (x < rdWlim) && decide (x > 0 - rdWlim)

/-- Does a carried value fit an integer type? -/
def rdWfits (x : Int) (t : Str) : Bool :=
  let h := rdIntHead t
  if h = [] ∨ rdCarried x = false then false
  else
    let w := rdIw t
    if h = "UInt".toList then decide (x ≥ 0) && (decide (w ≥ 1024) || x >>> w.toNat == 0)
    else if w ≥ 1024 then true
    else
      let half : Int := 2 ^ (w - 1).toNat
      decide (x ≥ 0 - half) && decide (x < half)

/-- The value the low bits of `x` read as in an integer type, nothing when it is not carried. -/
def rdWbits (x : Int) (t : Str) : Str :=
  let w := rdIw t
  if w > 1024 then if rdWfits x t then rdWtoa x else []
  else
    let span : Int := 2 ^ w.toNat
    let m0 := x.tmod span
    let m := if m0 < 0 then m0 + span else m0
    let sm := if rdIntSigned t = true ∧ m ≥ span.tdiv 2 then m - span else m
    if rdCarried sm then rdWtoa sm else []

/-! ## Names -/

/-- What a helper computes: an operation, or a conversion to a width. -/
inductive RdOp
  | arith (op : Op)
  | conv (w : Int)

structure RdI where
  flavor : Flavor
  op : RdOp
  uns : Bool

def rdIntPrefix (name : Str) : Str :=
  if strStartsWith name "wrapping_".toList then "wrapping_".toList
  else if strStartsWith name "saturating_".toList then "saturating_".toList
  else if strStartsWith name "checked_".toList then "checked_".toList
  else []

def rdIntFlavor (name : Str) : Option Flavor :=
  let p := rdIntPrefix name
  if p = "wrapping_".toList then some .wrap
  else if p = "saturating_".toList then some .sat
  else if p = "checked_".toList then some .check
  else none

def rdAllDigits (t : Str) : Bool := t.all isAsciiDigit

def rdIntHelper (name : Str) : Option RdI :=
  let px := rdIntPrefix name
  match rdIntFlavor name with
  | none => none
  | some fl =>
    let rest := name.drop px.length
    let uns := strStartsWith rest "u".toList
    let op := if uns then rest.drop 1 else rest
    if op = "add".toList then some ⟨fl, .arith .add, uns⟩
    else if op = "sub".toList then some ⟨fl, .arith .sub, uns⟩
    else if op = "mul".toList then some ⟨fl, .arith .mul, uns⟩
    else if op = "div".toList then some ⟨fl, .arith .div, uns⟩
    else if fl ≠ .wrap then none
    else if uns = false ∧ strStartsWith rest "i".toList = false then none
    else
      -- The width follows the `u` or `i`: `wrapping_u64` is UInt(64).
      let w := rest.drop 1
      if w = [] ∨ rdAllDigits w = false then none
      else some ⟨fl, .conv (strParseInt w), uns⟩

/-- The exact result `r` as the flavor folds it. -/
def rdSettle (fl : Flavor) (uns : Bool) (r : Int) (src : Str) : Option (Str × Str) :=
  if fl = .wrap then
    let t4 := rdWbits r src
    if t4 = [] then none else some (t4, rdNormTy src)
  else if rdWfits r src then some (rdWtoa r, rdNormTy src)
  else
    -- Out of range: checked traps; saturating clamps to the bound passed.
    let w := rdIw src
    if fl = .check ∨ w > 1024 then none
    else
      let span : Int := 2 ^ (if uns then w else w - 1).toNat
      let bound := if r < 0 then (if uns then 0 else 0 - span) else span - 1
      if rdWfits bound src then some (rdWtoa bound, rdNormTy src) else none

/-- The folded value and its type. -/
def rdBuiltinInt (name : Str) (ts vs : List Str) : Option (Str × Str) :=
  match rdIntHelper name, ts with
  | some h, t0 :: ts =>
    let src := rdNormTy t0
    if !rdIsIntTy src then none
    else
      match h.op with
      | .conv w =>
        match vs with
        | [v0] =>
          let dest := rdIty (if h.uns then "UInt".toList else "Int".toList) w
          let bits := rdWbits (rdW v0) dest
          if bits = [] then none else some (bits, rdNormTy dest)
        | _ => none
      | .arith op =>
        match vs with
        | [v0, v1] =>
          if rdNormTy (ts.headD []) ≠ src ∨ h.uns = rdIntSigned src then none
          else
            let x := rdW v0
            let y := rdW v1
            if rdCarried x = false ∨ rdCarried y = false then none
            else if op = .div ∧ (y = 0 ∨ (h.uns = false ∧ x < 0)) then none
            else
              let r := match op with
                | .add => x + y
                | .sub => x - y
                | .mul => x * y
                | .div => x.tdiv y
              rdSettle h.flavor h.uns r src
        | _ => none
  | _, _ => none

/-! ## What types say -/

/-- The sign and width that `tt` names; a width past an Int reads as the largest one. -/
def Named (tt : Str) (t : IntTy) : Prop :=
  rdIntHead tt = (if t.signed then "Int".toList else "UInt".toList) ∧
    rdIw tt = min 9223372036854775807 (t.width : Int)

variable {name s t0 tt ty v : Str} {t : IntTy} {fl : Flavor} {ts : List Str}

theorem Named.signed (h : Named tt t) : rdIntSigned tt = t.signed := by
  unfold rdIntSigned
  rw [h.1]
  cases t.signed <;> rfl

theorem rdCarried_iff (x : Int) : rdCarried x = true ↔ x < rdWlim ∧ -rdWlim < x := by
  unfold rdCarried
  rw [Bool.and_eq_true, decide_eq_true_eq, decide_eq_true_eq, Int.zero_sub]

/-- A carried value is in range of every wide type. -/
theorem rdWlim_le {w : Nat} (h : 1023 ≤ w) : rdWlim ≤ 2 ^ w := by
  exact pow_le_pow_right₀ (by decide) h

theorem shiftRight_eq_zero {x : Int} (hx : 0 ≤ x) (w : Nat) : x >>> w = 0 ↔ x < 2 ^ w := by
  rw [Int.shiftRight_eq_div_pow]
  have hpos : (0 : Int) < 2 ^ w := Int.pow_pos (by decide)
  have hcast : ((2 ^ w : Nat) : Int) = 2 ^ w := by norm_cast
  rw [hcast]
  constructor
  · intro h
    have hlt := Int.lt_ediv_add_one_mul_self x hpos
    rwa [h, Int.zero_add, Int.one_mul] at hlt
  · intro h
    exact Int.ediv_eq_zero_of_lt hx h

theorem rdWfits_iff (h : Named tt t) (x : Int) :
    rdWfits x tt = true ↔ rdCarried x = true ∧ t.InRange x := by
  obtain ⟨hhead, hw⟩ := h
  have hne : ¬(rdIntHead tt = []) := by
    rw [hhead]
    cases t.signed <;> decide
  unfold rdWfits
  by_cases hc : rdCarried x = true
  · have hcar := (rdCarried_iff x).1 hc
    rw [if_neg (by rintro (h | h); exacts [hne h, by rw [hc] at h; cases h])]
    simp only [hc, true_and]
    unfold IntTy.InRange IntTy.low IntTy.high
    cases hs : t.signed with
    | true =>
      rw [if_neg (by rw [hhead, hs]; decide)]
      simp only [if_true]
      by_cases hwide : rdIw tt ≥ 1024
      · have hlim := rdWlim_le (w := t.width - 1) (by omega)
        rw [if_pos hwide]
        simp only [true_iff]
        omega
      · have hexp : (rdIw tt - 1).toNat = t.width - 1 := by omega
        rw [if_neg hwide, hexp, Bool.and_eq_true, decide_eq_true_eq, decide_eq_true_eq]
        omega
    | false =>
      rw [if_pos (by rw [hhead, hs]; rfl), Bool.and_eq_true, decide_eq_true_eq]
      simp only [Bool.false_eq_true, if_false]
      by_cases hwide : rdIw tt ≥ 1024
      · have hlim := rdWlim_le (w := t.width) (by omega)
        simp only [hwide, decide_true, Bool.true_or, and_true]
        omega
      · have hexp : (rdIw tt).toNat = t.width := by omega
        simp only [hwide, decide_false, Bool.false_or, beq_iff_eq, hexp]
        constructor
        · rintro ⟨hx, hzero⟩
          have := (shiftRight_eq_zero hx t.width).1 hzero
          omega
        · rintro ⟨hx, hle⟩
          exact ⟨hx, (shiftRight_eq_zero hx t.width).2 (by omega)⟩
  · rw [if_pos (Or.inr (by simpa using hc))]
    simp [hc]

/-- The bits that are kept are the number of the type with the same ones. -/
theorem rdWbits_eq (h : Named tt t) {x : Int} (hne : rdWbits x tt ≠ []) :
    rdWbits x tt = intText (t.wrap x) := by
  have hw := h.2
  unfold rdWbits at hne ⊢
  simp only at hne ⊢
  by_cases hwide : rdIw tt > 1024
  · rw [if_pos hwide] at hne ⊢
    by_cases hfits : rdWfits x tt = true
    · rw [if_pos hfits, wrap_of_inRange ((rdWfits_iff h x).1 hfits).2]
      rfl
    · rw [if_neg hfits] at hne
      exact absurd rfl hne
  · have hexp : (rdIw tt).toNat = t.width := by omega
    rw [if_neg hwide, hexp, h.signed] at hne ⊢
    have hspan := two_pow_width t
    have hhalf : (0 : Int) < 2 ^ (t.width - 1) := Int.pow_pos (by decide)
    have htwo : ((2 : Int) ^ t.width).tdiv 2 = 2 ^ (t.width - 1) := by
      rw [hspan]
      exact Int.mul_tdiv_cancel_left _ (by decide)
    rw [htwo] at hne ⊢
    have hlt := Int.tmod_lt_of_pos x (show (0 : Int) < 2 ^ t.width by omega)
    have hgt := Int.lt_tmod_of_pos x (show (0 : Int) < 2 ^ t.width by omega)
    have hdvd : (2 : Int) ^ t.width ∣ x - x.tmod (2 ^ t.width) := by
      have := Int.mul_tdiv_add_tmod x (2 ^ t.width)
      exact ⟨x.tdiv (2 ^ t.width), by omega⟩
    generalize hm0 : x.tmod (2 ^ t.width) = m0 at hlt hgt hdvd hne ⊢
    -- first into the unsigned range, then into the signed one
    obtain ⟨m, hm⟩ : ∃ m, m = if m0 < 0 then m0 + 2 ^ t.width else m0 := ⟨_, rfl⟩
    have hmdvd : (2 : Int) ^ t.width ∣ x - m := by
      rw [hm]
      split_ifs
      · rw [← Int.sub_sub]
        exact Int.dvd_sub hdvd (Int.dvd_refl _)
      · exact hdvd
    rw [← hm] at hne ⊢
    have hkept : t.wrap x = if t.signed = true ∧ m ≥ 2 ^ (t.width - 1) then m - 2 ^ t.width else m := by
      apply wrap_unique
      · unfold IntTy.InRange IntTy.low IntTy.high
        cases t.signed with
        | true =>
          simp only [if_true, true_and]
          split_ifs <;> omega
        | false =>
          simp only [Bool.false_eq_true, false_and, if_false]
          omega
      · split_ifs
        · rw [show x - (m - 2 ^ t.width) = x - m + 2 ^ t.width by omega]
          exact Int.dvd_add hmdvd (Int.dvd_refl _)
        · exact hmdvd
    rw [← hkept] at hne ⊢
    by_cases hc : rdCarried (t.wrap x) = true
    · rw [if_pos hc]
      rfl
    · rw [if_neg hc] at hne
      exact absurd rfl hne

/-! ## Types by their names -/

def headText (signed : Bool) : Str := if signed then "Int".toList else "UInt".toList

/-- How a type is written. -/
def tyText (t : IntTy) : Str := rdIty (headText t.signed) t.width

theorem findText_lt {needle : Str} {i : Nat} (h : ∀ r, r <:+ s → needle.isPrefixOf r = false) :
    findText needle s i < 0 := by
  induction s generalizing i with
  | nil =>
    have hnil := h [] List.suffix_rfl
    cases needle with
    | nil => cases hnil
    | cons c needle => exact (by decide : (-1 : Int) < 0)
  | cons c s ih =>
    rw [findText, h (c :: s) List.suffix_rfl, if_neg Bool.false_ne_true]
    exact ih fun r hr => h r (hr.trans (List.suffix_cons c s))

theorem strContains_false {needle : Str} (h : ∀ r, r <:+ s → needle.isPrefixOf r = false) :
    strContains s needle = false :=
  decide_eq_false (not_le.2 (findText_lt h))

theorem not_mem_text {c : Char} (hc : c.isDigit = false) (w : Nat) : c ∉ Decimal.text w := by
  intro h
  rw [Decimal.allDigits_text w c h] at hc
  cases hc

/-- No width but 64 is written 64. -/
theorem text_isPrefixOf {w : Nat} (hw : w ≠ 64) :
    "64)".toList.isPrefixOf (Decimal.text w ++ [')']) = false := by
  rw [Bool.eq_false_iff]
  intro h
  obtain ⟨r, hr⟩ := List.isPrefixOf_iff_prefix.1 h
  have hr : '6' :: '4' :: ')' :: r = Decimal.text w ++ [')'] := hr
  have hparen := not_mem_text (c := ')') (by decide) w
  match htext : Decimal.text w with
  | [] => exact Decimal.text_ne_nil w htext
  | [c] =>
    rw [htext] at hr
    injection hr with h6 hr
    injection hr with h4
    exact absurd h4 (by decide)
  | [c, d] =>
    rw [htext] at hr
    injection hr with h6 hr
    injection hr with h4
    have h64 : Decimal.text w = Decimal.text 64 := by rw [htext, ← h6, ← h4]; rfl
    apply hw
    rw [← Decimal.value_text w, h64, Decimal.value_text]
  | c :: d :: e :: ds =>
    rw [htext] at hr hparen
    injection hr with h6 hr
    injection hr with h4 hr
    injection hr with he
    apply hparen
    rw [he]
    simp

theorem strContains_tyText (hw : t.width ≠ 64) : strContains (tyText t) "t(64)".toList = false := by
  have hdigits : ∀ r, r <:+ Decimal.text t.width ++ [')'] →
      "t(64)".toList.isPrefixOf r = false := by
    intro r hr
    rw [Bool.eq_false_iff]
    intro h
    obtain ⟨q, hq⟩ := List.isPrefixOf_iff_prefix.1 h
    have hmem : 't' ∈ Decimal.text t.width ++ [')'] := by
      apply hr.subset
      rw [← hq]
      exact List.mem_cons_self
    rcases List.mem_append.1 hmem with hmem | hmem
    · exact not_mem_text (by decide) _ hmem
    · exact absurd (List.mem_singleton.1 hmem) (by decide)
  have hint : ∀ r, r <:+ "Int(".toList ++ (Decimal.text t.width ++ [')']) →
      "t(64)".toList.isPrefixOf r = false := by
    intro r hr
    rcases List.suffix_cons_iff.1 hr with rfl | hr
    · rfl
    rcases List.suffix_cons_iff.1 hr with rfl | hr
    · rfl
    rcases List.suffix_cons_iff.1 hr with rfl | hr
    · exact text_isPrefixOf hw
    rcases List.suffix_cons_iff.1 hr with rfl | hr
    · rfl
    exact hdigits r hr
  have hne : ¬((t.width : Int) = 64) := fun h => hw (by exact_mod_cast h)
  apply strContains_false
  intro r hr
  rw [tyText, rdIty, if_neg hne, intText_natCast] at hr
  cases hs : t.signed with
  | true =>
    rw [hs] at hr
    exact hint r hr
  | false =>
    rw [hs] at hr
    rcases List.suffix_cons_iff.1 hr with rfl | hr
    · rfl
    · exact hint r hr

theorem rdNormTy_tyText (t : IntTy) : rdNormTy (tyText t) = tyText t := by
  by_cases hw : t.width = 64
  · have htext : tyText t = headText t.signed := by rw [tyText, hw]; rfl
    rw [htext]
    cases t.signed <;> rfl
  · rw [rdNormTy, strContains_tyText hw]
    rfl

/-- Digits read as their number, or as the largest Int. -/
theorem strParseInt_digits {ds : Str} (hne : ds ≠ []) (hall : ds.all isAsciiDigit = true) :
    strParseInt ds = min 9223372036854775807 (Decimal.value ds : Int) := by
  have hfold := foldl_digits hall 0
  obtain ⟨c, r, rfl⟩ := List.exists_cons_of_ne_nil hne
  have hc : c.isDigit = true := by
    exact List.all_eq_true.1 hall c List.mem_cons_self
  have hhead : ¬(c = '-' ∨ c = '+') := by
    rintro (rfl | rfl) <;> exact absurd hc (by decide)
  have hnodash : ¬ (c :: r).head? = some '-' := fun h => hhead (Or.inl (Option.some.inj h))
  unfold strParseInt
  simp only [hhead, if_false, hall, hnodash, List.isEmpty_cons, Bool.not_true, Bool.or_self,
    Bool.false_eq_true]
  exact congrArg _ hfold

theorem strParseInt_text (n : Nat) :
    strParseInt (Decimal.text n) = min 9223372036854775807 (n : Int) := by
  rw [strParseInt_digits (Decimal.text_ne_nil n) (text_digits n).2, Decimal.value_text]

theorem named_tyText (t : IntTy) : Named (tyText t) t := by
  by_cases hw : t.width = 64
  · have htext : tyText t = headText t.signed := by rw [tyText, hw]; rfl
    rw [Named, htext, hw]
    cases t.signed <;> decide
  have hne : ¬((t.width : Int) = 64) := fun h => hw (by exact_mod_cast h)
  have htext : tyText t = headText t.signed ++ '(' :: Decimal.text t.width ++ [')'] := by
    rw [tyText, rdIty, if_neg hne, intText_natCast]
  have hlong : ¬(tyText t = "Int".toList ∨ tyText t = "UInt".toList) := by
    have hmem : '(' ∈ tyText t := by
      rw [htext]
      simp
    rintro (h | h) <;> rw [h] at hmem <;> exact absurd hmem (by decide)
  have hend : strEndsWith (tyText t) ")".toList = true := by
    rw [htext]
    exact List.isSuffixOf_iff_suffix.2 (List.suffix_append _ _)
  have hhead : rdIntHead (tyText t) = headText t.signed := by
    rw [rdIntHead, if_neg hlong, hend, htext]
    cases t.signed <;> rfl
  refine ⟨hhead, ?_⟩
  have hnil : ¬(headText t.signed = []) := by cases t.signed <;> decide
  have hslice : strSlice (tyText t) (if headText t.signed = "UInt".toList then 5 else 4)
      (strLen (tyText t) - 1) = Decimal.text t.width := by
    rw [htext]
    unfold strSlice strLen
    cases t.signed with
    | true =>
      simp [headText]
    | false =>
      simp [headText]
  rw [rdIw, if_neg hlong]
  simp only [hhead]
  rw [if_neg hnil, rdNormTy_tyText, if_neg hlong, hslice, strParseInt_text]

/-! ## What names say -/

def flavorText : Flavor → Str
  | .wrap => "wrapping_".toList
  | .sat => "saturating_".toList
  | .check => "checked_".toList

def opText : Op → Str
  | .add => "add".toList
  | .sub => "sub".toList
  | .mul => "mul".toList
  | .div => "div".toList

/-- The helper of an operation; the unsigned one carries a `u`. -/
def helperName (fl : Flavor) (op : Op) (signed : Bool) : Str :=
  flavorText fl ++ ((if signed then [] else "u".toList) ++ opText op)

/-- The conversion to the width that `ds` spells. -/
def convName (signed : Bool) (ds : Str) : Str :=
  "wrapping_".toList ++ ((if signed then "i".toList else "u".toList) ++ ds)

theorem strStartsWith_iff {pre : Str} : strStartsWith s pre = true ↔ ∃ r, s = pre ++ r := by
  rw [strStartsWith, List.isPrefixOf_iff_prefix]
  exact ⟨fun ⟨r, hr⟩ => ⟨r, hr.symm⟩, fun ⟨r, hr⟩ => ⟨r, hr.symm⟩⟩

theorem rdIntFlavor_eq (h : rdIntFlavor name = some fl) : rdIntPrefix name = flavorText fl ∧
      name = flavorText fl ++ name.drop (rdIntPrefix name).length := by
  have hsplit {px : Str} (hpx : strStartsWith name px = true) :
      name = px ++ name.drop px.length := by
    obtain ⟨r, hr⟩ := strStartsWith_iff.1 hpx
    rw [hr, List.drop_left]
  unfold rdIntFlavor at h
  unfold rdIntPrefix at h ⊢
  by_cases hwrap : strStartsWith name "wrapping_".toList = true
  · rw [if_pos hwrap] at h ⊢
    cases h
    exact ⟨rfl, hsplit hwrap⟩
  rw [if_neg hwrap] at h ⊢
  by_cases hsat : strStartsWith name "saturating_".toList = true
  · rw [if_pos hsat] at h ⊢
    cases h
    exact ⟨rfl, hsplit hsat⟩
  rw [if_neg hsat] at h ⊢
  by_cases hcheck : strStartsWith name "checked_".toList = true
  · rw [if_pos hcheck] at h ⊢
    cases h
    exact ⟨rfl, hsplit hcheck⟩
  rw [if_neg hcheck] at h
  cases h

/-- A helper's name is one of an operation or of a conversion. -/
theorem rdIntHelper_eq {h : RdI} (hh : rdIntHelper name = some h) :
    (∃ op, h.op = .arith op ∧ name = helperName h.flavor op (!h.uns)) ∨
      ∃ ds, ds ≠ [] ∧ ds.all isAsciiDigit = true ∧ h.op = .conv (strParseInt ds) ∧
        name = convName (!h.uns) ds := by
  unfold rdIntHelper at hh
  cases hfl : rdIntFlavor name with
  | none =>
    rw [hfl] at hh
    cases hh
  | some fl =>
    obtain ⟨-, hname⟩ := rdIntFlavor_eq hfl
    rw [hfl] at hh
    simp only at hh
    generalize hrest : name.drop (rdIntPrefix name).length = rest at hh hname
    have hmark (hu : strStartsWith rest "u".toList = true) : rest = "u".toList ++ rest.drop 1 := by
      obtain ⟨r, hr⟩ := strStartsWith_iff.1 hu
      rw [hr]
      rfl
    generalize hrole : (if strStartsWith rest "u".toList then rest.drop 1 else rest) = role at hh
    have harith {op : Op} (hop : role = opText op) :
        name = helperName fl op (!strStartsWith rest "u".toList) := by
      rw [hop] at hrole
      rw [hname, helperName]
      by_cases hu : strStartsWith rest "u".toList = true
      · rw [if_pos hu] at hrole
        rw [hu, ← hrole]
        exact congrArg _ (hmark hu)
      · rw [if_neg hu] at hrole
        have hf : strStartsWith rest "u".toList = false := by simpa using hu
        rw [hf, ← hrole]
        rfl
    split_ifs at hh with hadd hsub hmul hdiv hwrap hneither hdigits
    · cases hh
      exact Or.inl ⟨.add, rfl, harith hadd⟩
    · cases hh
      exact Or.inl ⟨.sub, rfl, harith hsub⟩
    · cases hh
      exact Or.inl ⟨.mul, rfl, harith hmul⟩
    · cases hh
      exact Or.inl ⟨.div, rfl, harith hdiv⟩
    · cases hh
      refine Or.inr ⟨rest.drop 1, fun h => hdigits (Or.inl h), ?_, rfl, ?_⟩
      · by_contra hall
        exact hdigits (Or.inr (by simpa [rdAllDigits] using hall))
      · have hw : fl = .wrap := not_not.1 hwrap
        have htail : rest =
            (if !strStartsWith rest "u".toList then "i".toList else "u".toList) ++ rest.drop 1 := by
          by_cases hu : strStartsWith rest "u".toList = true
          · rw [hu]
            exact hmark hu
          · have hf : strStartsWith rest "u".toList = false := by simpa using hu
            have hi : strStartsWith rest "i".toList = true := by
              by_contra hi
              exact hneither ⟨hf, by simpa using hi⟩
            obtain ⟨r, hr⟩ := strStartsWith_iff.1 hi
            rw [hf, hr]
            rfl
        rw [hw] at hname
        exact hname.trans (congrArg ("wrapping_".toList ++ ·) htail)

/-! ## What is folded -/

/-- The bound passed is an end of the range. -/
theorem bound_eq (t : IntTy) (r : Int) {span : Int}
    (hspan : span = if t.signed then 2 ^ (t.width - 1) else 2 ^ t.width) :
    (if r < 0 then (if !t.signed then 0 else 0 - span) else span - 1) =
      if r < 0 then t.low else t.high := by
  unfold IntTy.low IntTy.high
  rw [hspan]
  cases t.signed with
  | true => simp
  | false => simp

/-- A carried end is that of a range whose numbers are carried. -/
theorem clamp_of_bound {r : Int} (hfits : ¬(rdCarried r = true ∧ t.InRange r))
    (hbound : rdCarried (if r < 0 then t.low else t.high) = true) :
    t.clamp r = if r < 0 then t.low else t.high := by
  have hb := (rdCarried_iff _).1 hbound
  have hlow := low_le_zero t
  have hhigh := zero_le_high t
  by_cases hneg : r < 0
  · rw [if_pos hneg] at hb ⊢
    by_cases hbelow : r < t.low
    · exact clamp_of_lt hbelow
    · refine absurd ⟨(rdCarried_iff r).2 ?_, ?_⟩ hfits
      · omega
      · exact ⟨not_lt.1 hbelow, by omega⟩
  · rw [if_neg hneg] at hb ⊢
    by_cases habove : t.high < r
    · exact clamp_of_gt habove
    · refine absurd ⟨(rdCarried_iff r).2 ?_, ?_⟩ hfits
      · omega
      · exact ⟨by omega, not_lt.1 habove⟩

theorem rdSettle_eq {r : Int} (h : rdSettle fl (!t.signed) r (tyText t) = some (v, ty)) :
    ty = tyText t ∧ ∃ x, settle t fl r = some x ∧ v = intText x := by
  have hnamed := named_tyText t
  unfold rdSettle at h
  rw [rdNormTy_tyText] at h
  by_cases hwrap : fl = .wrap
  · rw [if_pos hwrap] at h
    by_cases hnil : rdWbits r (tyText t) = []
    · rw [if_pos hnil] at h
      cases h
    · rw [if_neg hnil, Option.some.injEq, Prod.mk.injEq] at h
      rw [hwrap, ← h.1, rdWbits_eq hnamed hnil]
      exact ⟨h.2.symm, _, rfl, rfl⟩
  rw [if_neg hwrap] at h
  by_cases hfits : rdWfits r (tyText t) = true
  · rw [if_pos hfits, Option.some.injEq, Prod.mk.injEq] at h
    exact ⟨h.2.symm, r, settle_of_inRange fl ((rdWfits_iff hnamed r).1 hfits).2, h.1.symm⟩
  rw [if_neg hfits] at h
  simp only at h
  by_cases hcheck : fl = .check ∨ rdIw (tyText t) > 1024
  · rw [if_pos hcheck] at h
    cases h
  rw [if_neg hcheck] at h
  have hsat : fl = .sat := by
    cases fl with
    | wrap => exact absurd rfl hwrap
    | sat => rfl
    | check => exact absurd (Or.inl rfl) hcheck
  have hw := hnamed.2
  have hspan : (2 : Int) ^ (if (!t.signed) = true then rdIw (tyText t)
      else rdIw (tyText t) - 1).toNat = if t.signed then 2 ^ (t.width - 1) else 2 ^ t.width := by
    have hfull : (rdIw (tyText t)).toNat = t.width := by omega
    have hless : (rdIw (tyText t) - 1).toNat = t.width - 1 := by omega
    cases t.signed with
    | true => exact congrArg _ hless
    | false => exact congrArg _ hfull
  rw [hspan, bound_eq t r rfl] at h
  by_cases hbound : rdWfits (if r < 0 then t.low else t.high) (tyText t) = true
  · rw [if_pos hbound, Option.some.injEq, Prod.mk.injEq] at h
    have hout := fun hr => hfits ((rdWfits_iff hnamed r).2 hr)
    have hcar := ((rdWfits_iff hnamed _).1 hbound).1
    rw [hsat, ← h.1]
    exact ⟨h.2.symm, _, rfl, by rw [clamp_of_bound hout hcar]; rfl⟩
  · rw [if_neg hbound] at h
    cases h

theorem rdBuiltinInt_arith {vs : List Str} {op : Op} {uns : Bool} (hty : rdNormTy t0 = tyText t)
    (hhelper : rdIntHelper name = some ⟨fl, .arith op, uns⟩)
    (h : rdBuiltinInt name (t0 :: ts) vs = some (v, ty)) :
    uns = (!t.signed) ∧ ty = tyText t ∧ ∃ v0 v1 r, vs = [v0, v1] ∧
      eval t fl op (rdW v0) (rdW v1) = some r ∧ v = intText r := by
  have hnamed := named_tyText t
  unfold rdBuiltinInt at h
  simp only [hhelper, hty, hnamed.signed] at h
  by_cases hint : (!rdIsIntTy (tyText t)) = true
  · rw [if_pos hint] at h
    cases h
  rw [if_neg hint] at h
  match vs, h with
  | [v0, v1], h =>
    simp only at h
    by_cases hform : rdNormTy (ts.headD []) ≠ tyText t ∨ uns = t.signed
    · rw [if_pos hform] at h
      cases h
    rw [if_neg hform] at h
    have huns : uns = !t.signed := Bool.eq_not.2 fun he => hform (Or.inr he)
    subst huns
    by_cases hcar : rdCarried (rdW v0) = false ∨ rdCarried (rdW v1) = false
    · rw [if_pos hcar] at h
      cases h
    rw [if_neg hcar] at h
    by_cases hdiv : op = .div ∧ (rdW v1 = 0 ∨ ((!t.signed) = false ∧ rdW v0 < 0))
    · rw [if_pos hdiv] at h
      cases h
    rw [if_neg hdiv] at h
    obtain ⟨hty', x, hx, hv⟩ := rdSettle_eq h
    refine ⟨rfl, hty', v0, v1, x, rfl, ?_, hv⟩
    rw [eval]
    cases op with
    | add => exact hx
    | sub => exact hx
    | mul => exact hx
    | div =>
      rw [exact, if_neg fun hzero => hdiv ⟨rfl, Or.inl hzero⟩]
      exact hx

theorem rdBuiltinInt_conv {ds : Str} {vs : List Str} {uns : Bool} (hds : ds ≠ [])
    (hall : ds.all isAsciiDigit = true) (hty : rdNormTy t0 = tyText t)
    (hhelper : rdIntHelper name = some ⟨fl, .conv (strParseInt ds), uns⟩)
    (h : rdBuiltinInt name (t0 :: ts) vs = some (v, ty)) :
    ∃ v0, vs = [v0] ∧ ∀ dest : IntTy, dest.signed = (!uns) → dest.width = Decimal.value ds →
      v = intText (dest.wrap (rdW v0)) := by
  unfold rdBuiltinInt at h
  simp only [hhelper, hty] at h
  by_cases hint : (!rdIsIntTy (tyText t)) = true
  · rw [if_pos hint] at h
    cases h
  rw [if_neg hint] at h
  match vs, h with
  | [v0], h =>
    refine ⟨v0, rfl, fun dest hsigned hwidth => ?_⟩
    simp only at h
    -- a width past an Int reads as the largest one, and is as wide as any
    obtain ⟨w, hw⟩ : ∃ w, w = min 9223372036854775807 dest.width := ⟨_, rfl⟩
    have hpos := dest.pos
    have hparse : strParseInt ds = (w : Int) := by
      rw [strParseInt_digits hds hall, ← hwidth, hw]
      omega
    have htext : rdIty (if uns = true then "UInt".toList else "Int".toList) (strParseInt ds) =
        tyText ⟨dest.signed, w, by omega⟩ := by
      rw [hparse, tyText, hsigned]
      cases uns <;> rfl
    have hnamed : Named (tyText ⟨dest.signed, w, by omega⟩) dest := by
      have hnamed := named_tyText ⟨dest.signed, w, by omega⟩
      refine ⟨hnamed.1, hnamed.2.trans ?_⟩
      show min 9223372036854775807 (w : Int) = min 9223372036854775807 (dest.width : Int)
      omega
    rw [htext] at h
    by_cases hnil : rdWbits (rdW v0) (tyText ⟨dest.signed, w, by omega⟩) = []
    · rw [if_pos hnil] at h
      cases h
    · rw [if_neg hnil, Option.some.injEq, Prod.mk.injEq] at h
      rw [← h.1, rdWbits_eq hnamed hnil]

/-! ## The two implementations -/

/-- The text of a word as an operand. -/
def wordText (signed : Bool) (a : BitVec 64) : Str := intText (num signed a)

theorem rdIntHelper_helperName (fl : Flavor) (op : Op) (signed : Bool) :
    rdIntHelper (helperName fl op signed) = some ⟨fl, .arith op, !signed⟩ := by
  cases fl <;> cases op <;> cases signed <;> rfl

theorem word_of_fold {signed : Bool} {op : Op} {f : BitVec 64 → BitVec 64 → Option (BitVec 64)}
    {a b : BitVec 64} (hty : rdNormTy t0 = tyText (word signed))
    (hname : name = helperName fl op signed) (hf : rtHelper signed fl op = some f)
    (h : rdBuiltinInt name (t0 :: ts) [wordText signed a, wordText signed b] = some (v, ty)) :
    ∃ r, f a b = some r ∧ v = wordText signed r := by
  have hhelper := rdIntHelper_helperName fl op signed
  rw [← hname] at hhelper
  obtain ⟨-, -, v0, v1, x, hvs, hx, hv⟩ := rdBuiltinInt_arith hty hhelper h
  injection hvs with h0 hvs
  injection hvs with h1
  rw [← h0, ← h1, wordText, wordText, rdW_intText, rdW_intText, ← rtHelper_eval hf] at hx
  obtain ⟨r, hr, rfl⟩ := Option.map_eq_some_iff.1 hx
  exact ⟨r, hr, hv⟩

/-- What is folded is what the operation gives at the operands' width, or the conversion to the
width named; on words it is what the helper of the runtime computes. -/
theorem rdBuiltinInt_eval {t : IntTy} {name t0 v ty : Str} {ts vs : List Str}
    (hty : rdNormTy t0 = tyText t) (h : rdBuiltinInt name (t0 :: ts) vs = some (v, ty)) :
    ((∃ fl op v0 v1 r, name = helperName fl op t.signed ∧ vs = [v0, v1] ∧
        eval t fl op (rdW v0) (rdW v1) = some r ∧ v = intText r ∧ ty = tyText t) ∨
      ∃ signed ds v0, name = convName signed ds ∧ vs = [v0] ∧
        ∀ dest : IntTy, dest.signed = signed → dest.width = Decimal.value ds →
          v = intText (dest.wrap (rdW v0))) ∧
    ∀ signed fl op f a b, t = word signed → name = helperName fl op signed →
      rtHelper signed fl op = some f → vs = [wordText signed a, wordText signed b] →
        ∃ r, f a b = some r ∧ v = wordText signed r := by
  constructor
  · cases hhelper : rdIntHelper name with
    | none =>
      unfold rdBuiltinInt at h
      simp only [hhelper] at h
      cases h
    | some hi =>
      obtain ⟨fl, rop, uns⟩ := hi
      rcases rdIntHelper_eq hhelper with ⟨op, hop, hname⟩ | ⟨ds, hne, hall, hop, hname⟩
      · left
        rw [show rop = .arith op from hop] at hhelper
        obtain ⟨huns, hty', v0, v1, r, hvs, hr, hv⟩ := rdBuiltinInt_arith hty hhelper h
        rw [show (!(RdI.mk fl rop uns).uns) = t.signed by rw [huns, Bool.not_not]] at hname
        exact ⟨fl, op, v0, v1, r, hname, hvs, hr, hv, hty'⟩
      · right
        rw [show rop = .conv (strParseInt ds) from hop] at hhelper
        obtain ⟨v0, hvs, hv⟩ := rdBuiltinInt_conv hne hall hty hhelper h
        exact ⟨!uns, ds, v0, hname, hvs, hv⟩
  · rintro signed fl op f a b rfl hname hf rfl
    exact word_of_fold hty hname hf h

theorem rdBuiltinInt_eval_corner :
    ∃ r, rtSaturatingMul imin (0#64 - 1#64) = some r ∧
      "9223372036854775807".toList = wordText true r := by
  have hfold : rdBuiltinInt "saturating_mul".toList ["Int".toList, "Int(64)".toList]
      ["-9223372036854775808".toList, "-1".toList] =
        some ("9223372036854775807".toList, "Int".toList) := by
    decide +kernel
  exact (rdBuiltinInt_eval (t := word true) (by decide) hfold).2 true .sat .mul rtSaturatingMul
    imin (0#64 - 1#64) rfl rfl rfl (by decide)

/-- A checked sum in range is folded to the sum itself, not to an Option. -/
theorem checked_sum_plain :
    rdBuiltinInt "checked_add".toList ["Int".toList, "Int".toList] ["1".toList, "2".toList] =
      some ("3".toList, "Int".toList) := by
  decide +kernel

end Reduce
