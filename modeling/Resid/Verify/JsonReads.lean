import Mathlib.Algebra.Order.Ring.Int
import Resid.Lib.Scan
import Resid.Verify.JsonGrammar

/-!
# Whitespace, words, numbers and strings

What the scanners of the strict JSON accept, against its grammar.  Each is stated at a
position `i` whose remaining bytes `b.drop i` are a text followed by the rest.

    b.drop i = w ++ r, Blank w, r not blank → jsWs b i = i + w.length           (jsWs_of_blank)
    jsWord b i w ↔ bytesOf w <+: b.drop i                                       (jsWord_iff)
    Chars t s → b.drop i = t ++ 34 :: r → jsString b i [] reads s               (jsString_of_chars)
    jsString b i [] reads s → its bytes are Chars of s                          (chars_of_jsString)
-/

namespace Verify

open Runtime Scan

/-! ## Whitespace -/

theorem jsWs_eq (b : List Int) (i : Nat) : jsWs b i = skipWhile isWs b i := by
  apply eq_skipWhile
  · intro i c hc hws
    obtain ⟨hi, rfl⟩ := List.getElem?_eq_some_iff.1 hc
    rw [jsWs, dif_pos hi, if_pos hws]
  · intro i hstop
    rw [jsWs]
    by_cases hi : i < b.length
    · have hws := hstop _ (List.getElem?_eq_getElem hi)
      rw [dif_pos hi, if_neg (by simp [hws])]
    · rw [dif_neg hi]

variable {b ds r : List Int} {d0 i : Nat} {neg : Bool}

theorem jsWs_of_blank {w : List Int} (h : b.drop i = w ++ r) (hw : Blank w) (hr : Stops isWs r) :
    jsWs b i = i + w.length := by
  rw [jsWs_eq]
  exact skipWhile_eq h hw hr

theorem blank_of_jsWs (b : List Int) (i : Nat) :
    ∃ w, b.drop i = w ++ b.drop (jsWs b i) ∧ Blank w ∧ jsWs b i = i + w.length ∧
      Stops isWs (b.drop (jsWs b i)) := by
  rw [jsWs_eq]
  exact skipWhile_spec isWs b i

theorem Blank.append {w w' : List Int} (hw : Blank w) (hw' : Blank w') : Blank (w ++ w') := by
  intro c hc
  rcases List.mem_append.1 hc with hc | hc
  · exact hw c hc
  · exact hw' c hc

theorem Blank.nil : Blank [] := by
  intro c hc
  cases hc

/-! ## Words -/

theorem jsWordAt_iff (b : List Int) (i : Nat) (w : List Int) (k : Nat) :
    jsWordAt b i w k = true ↔ w.drop k <+: b.drop (i + k) := by
  fun_induction jsWordAt b i w k with
  | case1 k h =>
    rw [List.drop_eq_nil_of_le h]
    simp
  | case2 k h ih =>
    have hw := List.drop_eq_getElem_cons (Nat.lt_of_not_le h)
    rw [Bool.and_eq_true, beq_iff_eq, ih, hw]
    constructor
    · rintro ⟨hget, hrest⟩
      rw [drop_of_getElem? hget]
      exact List.cons_prefix_cons.2 ⟨rfl, hrest⟩
    · intro hpre
      obtain ⟨r, hr⟩ := hpre
      rw [List.cons_append] at hr
      refine ⟨getElem?_of_drop hr.symm, r, ?_⟩
      rw [← Nat.add_assoc, drop_succ hr.symm]

theorem jsWord_iff {w : String} : jsWord b i w = true ↔ bytesOf w <+: b.drop i :=
  jsWordAt_iff b i (bytesOf w) 0

/-! ## Numbers -/

theorem jsDigits_eq (b : List Int) (i : Nat) : jsDigits b i = skipWhile isDigit b i := by
  apply eq_skipWhile
  · intro i c hc hd
    obtain ⟨hi, rfl⟩ := List.getElem?_eq_some_iff.1 hc
    rw [jsDigits, dif_pos hi, if_pos hd]
  · intro i hstop
    rw [jsDigits]
    by_cases hi : i < b.length
    · have hd := hstop _ (List.getElem?_eq_getElem hi)
      rw [dif_pos hi, if_neg (by simp [hd])]
    · rw [dif_neg hi]

theorem jsInt_eq (h : b.drop i = ds ++ r) (acc : Int) :
    jsInt b i (i + ds.length) acc = ds.foldl (fun acc c => acc * 10 + (c - 48)) acc := by
  induction ds generalizing i acc with
  | nil =>
    rw [jsInt, List.length_nil, Nat.add_zero, if_pos (Nat.le_refl i)]
    rfl
  | cons c ds ih =>
    have hget := getElem?_of_drop h
    rw [jsInt, if_neg (by rw [List.length_cons]; omega), List.getD_eq_getElem?_getD, hget,
      List.foldl_cons]
    have hlen : i + (c :: ds).length = i + 1 + ds.length := by
      rw [List.length_cons]
      omega
    rw [hlen]
    exact ih (drop_succ h) _

/-- What may follow a number: no digit, no fraction and no exponent. -/
def NumberEnd (r : List Int) : Prop :=
  ∀ c s, r = c :: s → isDigit c = false ∧ c ≠ 46 ∧ c ≠ 101 ∧ c ≠ 69

/-- The digits at `d0` as the tests of `jsNumber` see them. -/
theorem numeral_iff (h : b.drop d0 = ds ++ r) (hds : ∀ c ∈ ds, isDigit c = true) : Numeral ds ↔
      ¬ (ds.length = 0 ∨ ds.length > 18 ∨ (ds.length > 1 ∧ b[d0]? = some 48)) := by
  have hhead : 1 < ds.length → b[d0]? = ds[0]? := by
    intro hlen
    cases ds with
    | nil => cases hlen
    | cons c ds => exact getElem?_of_drop h
  constructor
  · rintro ⟨-, hne, hshort, hzero⟩ (h0 | h18 | ⟨h1, h48⟩)
    · omega
    · omega
    · rw [hhead h1] at h48
      exact hzero h1 h48
  · intro hnot
    refine ⟨hds, by omega, by omega, fun h1 h48 => hnot (.inr (.inr ⟨h1, ?_⟩))⟩
    rw [hhead h1]
    exact h48

theorem numberEnd_iff {e : Nat} (hstop : Stops isDigit (b.drop e)) :
    NumberEnd (b.drop e) ↔ ¬ (b[e]? = some 46 ∨ b[e]? = some 101 ∨ b[e]? = some 69) := by
  constructor
  · rintro hend (h | h | h)
    · exact (hend _ _ (drop_of_getElem? h)).2.1 rfl
    · exact (hend _ _ (drop_of_getElem? h)).2.2.1 rfl
    · exact (hend _ _ (drop_of_getElem? h)).2.2.2 rfl
  · intro hnot c s hr
    have hget := getElem?_of_drop hr
    rw [hget] at hnot
    refine ⟨hstop c s hr, ?_, ?_, ?_⟩ <;> rintro rfl <;> exact hnot (by simp)

/-- A sign or none, and the digits after it. -/
def signed (neg : Bool) (ds : List Int) : List Int := if neg then 45 :: ds else ds

theorem Value.signed {lim : Limits} {room off : Nat} (neg : Bool) (h : Numeral ds) :
    Value lim room off (Verify.signed neg ds)
      (.jNum (if neg then 0 - numeralValue ds else numeralValue ds)) := by
  cases neg with
  | false => exact .num h
  | true =>
    have hv : (0 : Int) - numeralValue ds = -numeralValue ds := Int.zero_sub _
    simp only [Verify.signed, if_true, hv]
    exact .neg h

theorem length_signed (neg : Bool) (ds : List Int) :
    (signed neg ds).length = (if neg then 1 else 0) + ds.length := by
  cases neg with
  | true => exact Nat.add_comm ds.length 1
  | false => exact (Nat.zero_add ds.length).symm

/-- What `jsNumber` does once the run of digits from `d0` is known. -/
theorem jsNumber_eq (hneg : (b[i]? == some 45) = neg) (hd0 : d0 = i + if neg then 1 else 0)
    (h : b.drop d0 = ds ++ r) (hds : ∀ c ∈ ds, isDigit c = true) (hr : Stops isDigit r) :
    jsNumber b i =
      if ds.length = 0 ∨ ds.length > 18 ∨ (ds.length > 1 ∧ b[d0]? = some 48) then
        jsFail "a malformed number".toList i
      else if b[d0 + ds.length]? = some 46 ∨ b[d0 + ds.length]? = some 101 ∨
          b[d0 + ds.length]? = some 69 then
        jsFail "a number with a fraction or exponent".toList i
      else
        jsRead (.jNum (if neg then 0 - numeralValue ds else numeralValue ds)) i
          (d0 + ds.length) := by
  have hif : (if neg then i + 1 else i) = d0 := by
    rw [hd0]
    cases neg <;> rfl
  have hend := skipWhile_eq h hds hr
  simp only [jsNumber, hneg, hif, jsDigits_eq, hend, Nat.add_sub_cancel_left, jsInt_eq h,
    numeralValue]

theorem drop_signed (hd0 : d0 = i + if neg then 1 else 0) (h : b.drop i = signed neg ds ++ r) :
    b.drop d0 = ds ++ r := by
  subst hd0
  cases neg with
  | true => exact drop_succ h
  | false => exact h

theorem jsNumber_of_numeral (h : b.drop i = signed neg ds ++ r) (hds : Numeral ds)
    (hr : NumberEnd r) : jsNumber b i =
      jsRead (.jNum (if neg then 0 - numeralValue ds else numeralValue ds)) i
        (i + (signed neg ds).length) := by
  have hsign : (b[i]? == some 45) = neg := by
    cases neg with
    | true => rw [getElem?_of_drop h, beq_self_eq_true]
    | false =>
      cases ds with
      | nil => exact absurd hds.nonempty (Nat.lt_irrefl 0)
      | cons c ds =>
        have hc : isDigit c = true := hds.digits c List.mem_cons_self
        rw [getElem?_of_drop h]
        rw [beq_eq_false_iff_ne]
        rintro ⟨⟩
        cases hc
  obtain ⟨d0, hd0⟩ : ∃ d0, d0 = i + if neg then 1 else 0 := ⟨_, rfl⟩
  have hdrop := drop_signed hd0 h
  have hstop : Stops isDigit r := fun c s he => (hr c s he).1
  have hlen : d0 + ds.length = i + (signed neg ds).length := by
    rw [length_signed, hd0, Nat.add_assoc]
  rw [jsNumber_eq hsign hd0 hdrop hds.digits hstop,
    if_neg ((numeral_iff hdrop hds.digits).1 hds), if_neg, hlen]
  have hrest := drop_add hdrop
  rw [← hrest] at hr hstop
  exact (numberEnd_iff hstop).1 hr

/-- A number that is read is the numeral at `i`, sign included. -/
theorem numeral_of_jsNumber (hok : (jsNumber b i).err = []) :
    ∃ neg ds, Numeral ds ∧ b.drop i = signed neg ds ++ b.drop (i + (signed neg ds).length) ∧
      jsNumber b i =
        jsRead (.jNum (if neg then 0 - numeralValue ds else numeralValue ds)) i
          (i + (signed neg ds).length) := by
  obtain ⟨neg, hneg⟩ : ∃ neg, (b[i]? == some 45) = neg := ⟨_, rfl⟩
  obtain ⟨d0, hd0⟩ : ∃ d0, d0 = i + if neg then 1 else 0 := ⟨_, rfl⟩
  obtain ⟨ds, hdrop, hdigits, hend, hstop⟩ := skipWhile_spec isDigit b d0
  rw [hend] at hdrop hstop
  have hlen : d0 + ds.length = i + (signed neg ds).length := by
    rw [length_signed, hd0, Nat.add_assoc]
  have h : b.drop i = signed neg ds ++ b.drop (d0 + ds.length) := by
    cases neg with
    | true =>
      have hget : b[i]? = some 45 := by simpa using hneg
      rw [drop_of_getElem? hget]
      subst hd0
      exact congrArg (45 :: ·) hdrop
    | false =>
      subst hd0
      exact hdrop
  have heq := jsNumber_eq hneg hd0 hdrop hdigits hstop
  rw [heq] at hok
  by_cases hnum : Numeral ds
  · rw [if_neg ((numeral_iff hdrop hdigits).1 hnum)] at hok heq
    by_cases hnext : b[d0 + ds.length]? = some 46 ∨ b[d0 + ds.length]? = some 101 ∨
        b[d0 + ds.length]? = some 69
    · rw [if_pos hnext] at hok
      cases hok
    · rw [if_neg hnext, hlen] at heq
      rw [hlen] at h
      exact ⟨neg, ds, hnum, h, heq⟩
  · rw [if_pos (not_not.1 (mt (numeral_iff hdrop hdigits).2 hnum))] at hok
    cases hok

/-! ## Strings -/

theorem jsEscape_of_mem {e r : Int} (h : (e, r) ∈ escapes) : jsEscape e = r ∧ ¬ r < 0 := by
  simp only [escapes, List.mem_cons, Prod.mk.injEq, List.not_mem_nil, or_false] at h
  rcases h with ⟨rfl, rfl⟩ | ⟨rfl, rfl⟩ | ⟨rfl, rfl⟩ | ⟨rfl, rfl⟩ | ⟨rfl, rfl⟩ | ⟨rfl, rfl⟩ |
    ⟨rfl, rfl⟩ | ⟨rfl, rfl⟩ <;> decide

theorem mem_of_jsEscape {e : Int} (h : ¬ jsEscape e < 0) : (e, jsEscape e) ∈ escapes := by
  unfold jsEscape at h ⊢
  split_ifs at h ⊢ with h1 h2 h3 h4 h5 h6 h7 h8
  all_goals first
    | omega
    | (subst_vars; decide)

theorem jsString_of_chars {t : List Int} {s : Str} (hchars : Chars t s)
    (h : b.drop i = t ++ 34 :: r) (acc : Str) :
    jsString b i acc = ⟨acc ++ s, i + t.length + 1, []⟩ := by
  induction hchars generalizing i acc with
  | nil =>
    have hi := lt_of_drop h
    have hget := getElem?_of_drop h
    rw [List.getElem?_eq_getElem hi, Option.some.injEq] at hget
    rw [jsString, dif_neg (by omega)]
    simp only [hget, if_pos, List.append_nil, List.length_nil, Nat.add_zero]
  | plain hlo hhi hq hb ht ih =>
    rename_i c t s
    have hi := lt_of_drop h
    have hget := getElem?_of_drop h
    rw [List.getElem?_eq_getElem hi, Option.some.injEq] at hget
    rw [jsString, dif_neg (by omega)]
    simp only [hget]
    rw [if_neg hq, if_neg (by omega), if_pos hb, ih (drop_succ h)]
    simp only [List.append_assoc, List.cons_append, List.nil_append, List.length_cons,
      JsS.mk.injEq, and_true, true_and]
    omega
  | escape he ht ih =>
    rename_i e r' t s
    have hi := lt_of_drop h
    have hget := getElem?_of_drop h
    rw [List.getElem?_eq_getElem hi, Option.some.injEq] at hget
    have h1 := drop_succ h
    have hi1 := lt_of_drop h1
    have hget1 := getElem?_of_drop h1
    rw [List.getElem?_eq_getElem hi1, Option.some.injEq] at hget1
    obtain ⟨hesc, hpos⟩ := jsEscape_of_mem he
    rw [jsString, dif_neg (by omega)]
    simp only [hget, hget1, hesc]
    rw [if_neg (by omega), if_neg (by omega), if_neg (by omega), dif_neg (by omega),
      if_neg hpos, ih (drop_succ h1)]
    simp only [List.append_assoc, List.cons_append, List.nil_append, List.length_cons,
      JsS.mk.injEq, and_true, true_and]
    omega

theorem chars_of_jsString {acc : Str} (hok : (jsString b i acc).err = []) :
    ∃ t s, Chars t s ∧ b.drop i = t ++ 34 :: b.drop (i + t.length + 1) ∧
      jsString b i acc = ⟨acc ++ s, i + t.length + 1, []⟩ := by
  fun_induction jsString b i acc with
  | case1 => cases hok
  | case2 i acc hi c hq =>
    refine ⟨[], [], .nil, ?_, by simp⟩
    rw [List.drop_eq_getElem_cons (by omega : i < b.length)]
    exact congrArg (· :: b.drop (i + 1)) hq
  | case3 => cases hok
  | case4 i acc hi c hq hrange hb ih =>
    obtain ⟨t, s, ht, hdrop, heq⟩ := ih hok
    refine ⟨c :: t, codeChar c :: s, .plain (by omega) (by omega) hq hb ht, ?_, ?_⟩
    · rw [List.drop_eq_getElem_cons (by omega : i < b.length), hdrop, List.length_cons]
      simp only [List.cons_append, c]
      congr 4
      omega
    · rw [heq, List.length_cons]
      simp only [List.append_assoc, List.cons_append, List.nil_append, JsS.mk.injEq, and_true,
        true_and]
      omega
  | case5 => cases hok
  | case6 => cases hok
  | case7 i acc hi c hq hrange hb h1 r hr ih =>
    obtain ⟨t, s, ht, hdrop, heq⟩ := ih hok
    have hc : c = 92 := by omega
    refine ⟨92 :: b[i + 1] :: t, codeChar r :: s, .escape (mem_of_jsEscape hr) ht, ?_, ?_⟩
    · rw [List.drop_eq_getElem_cons (by omega : i < b.length),
        List.drop_eq_getElem_cons (by omega : i + 1 < b.length), hdrop]
      simp only [List.length_cons, List.cons_append, ← hc, c]
      congr 5
      omega
    · rw [heq]
      simp only [List.length_cons, List.append_assoc, List.cons_append, List.nil_append,
        JsS.mk.injEq, and_true, true_and]
      omega

theorem jsHas_iff (ks : List Str) (k : Str) (i : Nat) :
    jsHas ks k i = true ↔ k ∈ ks.drop i := by
  fun_induction jsHas ks k i with
  | case1 i h ih =>
    rw [List.drop_eq_getElem_cons h, List.mem_cons, Bool.or_eq_true, beq_iff_eq, ih, eq_comm]
  | case2 i h =>
    rw [List.drop_eq_nil_of_le (Nat.le_of_not_lt h)]
    simp

/-!
## What the strict JSON parser reads

The parser returns on every input, and what it returns without an error is the text at the
position it started from.  Containers are checked before the next item is read, so the
limits the parser keeps are one above the stated ones.

    jsValue b i depth = some p,  p.err = [] →
      p reads a `Value Limits.checked (32 - depth) i`                         (valueReads)
    Value Limits.checked room i t v, room + depth ≤ 32, a text may follow →
      jsValue b i depth reads v                                               (Value.reads)

### Algorithm

One induction on the bytes left: an item of a container starts after the container's own
bracket, so the three readers call each other at later positions only, except that an
array hands its own position to `jsValue`.
-/

/-- The limits the container checks keep: the count is compared before an item is added. -/
def Limits.checked : Limits := ⟨4097, 1025⟩

/-- A value that `jsValue` reads at `i`. -/
def ValueReads (b : List Int) (i : Nat) : Prop :=
  ∀ depth, ∃ p, jsValue b i depth = some p ∧ (p.err = [] → depth ≤ 32 ∧
    ∃ t v, b.drop i = t ++ b.drop (i + t.length) ∧ Value .checked (32 - depth) i t v ∧
      p = jsRead v i (i + t.length))

/-- The items that `jsArray` reads at `i`, after the `acc` it has. -/
def ArrayReads (b : List Int) (i : Nat) : Prop :=
  ∀ start depth acc first, ∃ p, jsArray b i start depth acc first = some p ∧ (p.err = [] →
    (first = true ∧ b[i]? = some 93 ∧ p = jsRead (.jArr acc) start (i + 1)) ∨
    (depth + 1 ≤ 32 ∧ ∃ t xs, Items .checked (32 - (depth + 1)) i t xs ∧
      b.drop i = t ++ 93 :: b.drop (i + t.length + 1) ∧ acc.length + xs.length ≤ 4097 ∧
      p = jsRead (.jArr (acc ++ xs)) start (i + t.length + 1)))

/-- The members that `jsObject` reads at `i`, after the `ks` and `vs` it has. -/
def ObjectReads (b : List Int) (i : Nat) : Prop :=
  ∀ start depth ks vs first, ks.Nodup →
    ∃ p, jsObject b i start depth ks vs first = some p ∧ (p.err = [] →
      (first = true ∧ b[i]? = some 125 ∧ p = jsRead (.jObj ks vs) start (i + 1)) ∨
      (depth + 1 ≤ 32 ∧ ∃ t ks' vs', Members .checked (32 - (depth + 1)) i t ks' vs' ∧
        b.drop i = t ++ 125 :: b.drop (i + t.length + 1) ∧ (ks ++ ks').Nodup ∧
        ks.length + ks'.length ≤ 1025 ∧
        p = jsRead (.jObj (ks ++ ks') (vs ++ vs')) start (i + t.length + 1)))

/-! ## Whitespace before a text -/

variable {lim : Limits}

variable {i off room : Nat} {b t w : List Int} {v : Json}

theorem Padded.blank {x : JsonAt} (hw : Blank w) (h : Padded lim room (off + w.length) t x) :
    Padded lim room off (w ++ t) x := by
  obtain @⟨_, _, u, t, u', v, hu, hv, hu'⟩ := h
  have hoff : off + w.length + u.length = off + (w ++ u).length := by
    rw [List.length_append, Nat.add_assoc]
  have htext : w ++ (u ++ t ++ u') = w ++ u ++ t ++ u' := by
    simp only [List.append_assoc]
  rw [hoff] at hv ⊢
  rw [htext]
  exact .mk (hw.append hu) hv hu'

theorem Items.blank {xs : List JsonAt} (hw : Blank w) (h : Items lim room (off + w.length) t xs) :
    Items lim room off (w ++ t) xs := by
  cases h with
  | last h => exact .last (h.blank hw)
  | more h hs =>
    rename_i t r v vs
    have hoff : off + w.length + t.length + 1 = off + (w ++ t).length + 1 := by
      rw [List.length_append, Nat.add_assoc off]
    rw [hoff] at hs
    rw [← List.append_assoc]
    exact .more (h.blank hw) hs

theorem Name.blank {n : List Int} {k : Str} (hw : Blank w) (h : Name n k) : Name (w ++ n) k := by
  obtain @⟨u, n, u', k, hu, hn, hu'⟩ := h
  simp only [← List.append_assoc]
  exact .mk (hw.append hu) hn hu'

theorem Members.blank {ks : List Str} {vs : List JsonAt} (hw : Blank w)
    (h : Members lim room (off + w.length) t ks vs) : Members lim room off (w ++ t) ks vs := by
  cases h with
  | last hn h =>
    rename_i n t k v
    rw [Nat.add_assoc, ← List.length_append] at h
    rw [← List.append_assoc]
    exact .last (hn.blank hw) h
  | more hn h hs =>
    rename_i n t r k v ks vs
    rw [Nat.add_assoc off, ← List.length_append] at h
    have hoff : off + w.length + (n ++ t).length + 1 = off + (w ++ n ++ t).length + 1 := by
      simp only [List.length_append]
      omega
    rw [hoff] at hs
    simp only [← List.append_assoc]
    exact .more (hn.blank hw) h hs

/-- A value with the whitespace the parser skips after it. -/
theorem padded_of_value (h : b.drop i = t ++ b.drop (i + t.length)) (hv : Value lim room i t v) :
    ∃ u, Padded lim room i u (.mk v i (i + t.length)) ∧
      b.drop i = u ++ b.drop (i + u.length) ∧ jsWs b (i + t.length) = i + u.length := by
  obtain ⟨w, hdrop, hw, hpos, -⟩ := blank_of_jsWs b (i + t.length)
  have hlen : i + (t ++ w).length = i + t.length + w.length := by
    rw [List.length_append, Nat.add_assoc]
  refine ⟨t ++ w, ?_, ?_, ?_⟩
  · have hpad : Padded lim room i ([] ++ t ++ w) _ := .mk Blank.nil hv hw
    simpa using hpad
  · rw [hlen, ← hpos, List.append_assoc, ← hdrop]
    exact h
  · rw [hlen, hpos]

theorem Value.ne_nil (h : Value lim room off t v) : t ≠ [] := by
  cases h with
  | num h =>
    rintro rfl
    exact absurd h.nonempty (Nat.lt_irrefl 0)
  | null => decide
  | true => decide
  | false => decide
  | _ => exact List.cons_ne_nil _ _

theorem lt_of_value (h : b.drop i = t ++ b.drop (i + t.length)) (hv : Value lim room i t v) :
    i < b.length := by
  cases t with
  | nil => exact absurd rfl hv.ne_nil
  | cons c t => exact lt_of_drop h

/-! ## One step of each reader -/

theorem arrayReads_step (hvalue : ValueReads b i)
    (hlater : i < b.length → ∀ j, i < j → ArrayReads b j) : ArrayReads b i := by
  intro start depth acc first
  rw [jsArray_eq, jsArrayStep]
  by_cases hclose : b[i]? = some 93 ∧ first = true
  · rw [if_pos hclose]
    exact ⟨_, rfl, fun _ => .inl ⟨hclose.2, hclose.1, rfl⟩⟩
  rw [if_neg hclose]
  by_cases hmany : acc.length > 4096
  · rw [if_pos hmany]
    exact ⟨_, rfl, nofun⟩
  rw [if_neg hmany]
  obtain ⟨p, hp, hread⟩ := hvalue (depth + 1)
  rw [hp]
  simp only [Option.bind_eq_bind, Option.bind_some]
  by_cases herr : p.err = []
  · rw [if_neg (not_not.2 herr)]
    obtain ⟨hdepth, t, v, hdrop, hv, rfl⟩ := hread herr
    obtain ⟨u, hpad, hdropu, hj⟩ := padded_of_value hdrop hv
    simp only [jsRead, hj]
    by_cases hcomma : b[i + u.length]? = some 44
    · rw [if_pos hcomma]
      obtain ⟨w, hdropw, hw, hposw, -⟩ := blank_of_jsWs b (i + u.length + 1)
      obtain ⟨q, hq, hreadq⟩ := hlater (lt_of_value hdrop hv) (jsWs b (i + u.length + 1))
        (by omega) start depth (acc ++ [.mk v i (i + t.length)]) false
      refine ⟨q, hq, fun hqerr => .inr ⟨hdepth, ?_⟩⟩
      rcases hreadq hqerr with ⟨hfalse, -⟩ | ⟨-, r, xs, hitems, hdropr, hlen, rfl⟩
      · cases hfalse
      · have hlenr : i + (u ++ 44 :: (w ++ r)).length = jsWs b (i + u.length + 1) + r.length := by
          rw [hposw]
          simp only [List.length_append, List.length_cons]
          omega
        refine ⟨u ++ 44 :: (w ++ r), .mk v i (i + t.length) :: xs, ?_, ?_, ?_, ?_⟩
        · refine .more hpad (Items.blank hw ?_)
          rw [← hposw]
          exact hitems
        · rw [hlenr, hdropu, drop_of_getElem? hcomma, hdropw, hdropr]
          simp only [List.append_assoc, List.cons_append]
        · simp only [List.length_append, List.length_cons, List.length_nil] at hlen ⊢
          omega
        · rw [hlenr]
          simp only [jsRead, List.append_assoc, List.cons_append, List.nil_append]
    · rw [if_neg hcomma]
      by_cases hend : b[i + u.length]? = some 93
      · rw [if_pos hend]
        refine ⟨_, rfl, fun _ => .inr ⟨hdepth, u, [.mk v i (i + t.length)], .last hpad, ?_, ?_, rfl⟩⟩
        · rw [hdropu, drop_of_getElem? hend]
        · simp only [List.length_cons, List.length_nil]
          omega
      · rw [if_neg hend]
        exact ⟨_, rfl, nofun⟩
  · rw [if_pos herr]
    exact ⟨p, rfl, fun h => absurd h herr⟩

theorem objectReads_step (hvalue : i < b.length → ∀ j, i < j → ValueReads b j)
    (hlater : i < b.length → ∀ j, i < j → ObjectReads b j) : ObjectReads b i := by
  intro start depth ks vs first hnd
  rw [jsObject_eq, jsObjectStep]
  by_cases hclose : b[i]? = some 125 ∧ first = true
  · rw [if_pos hclose]
    exact ⟨_, rfl, fun _ => .inl ⟨hclose.2, hclose.1, rfl⟩⟩
  rw [if_neg hclose]
  by_cases hmany : ks.length > 1024
  · rw [if_pos hmany]
    exact ⟨_, rfl, nofun⟩
  rw [if_neg hmany]
  by_cases hquote : b[i]? = some 34
  swap
  · rw [if_pos hquote]
    exact ⟨_, rfl, nofun⟩
  rw [if_neg (not_not.2 hquote)]
  have hi := lt_of_drop (drop_of_getElem? hquote)
  by_cases hstr : (jsString b (i + 1) []).err = []
  swap
  · simp only [if_pos hstr]
    exact ⟨_, rfl, fun h => absurd h hstr⟩
  obtain ⟨n, k, hn, hdropn, hk⟩ := chars_of_jsString hstr
  simp only [hk, List.nil_append, ne_eq, not_true_eq_false, if_false]
  by_cases hdup : jsHas ks k 0 = true
  · rw [if_pos hdup]
    exact ⟨_, rfl, nofun⟩
  rw [if_neg hdup]
  obtain ⟨w, hdropw, hw, hposw, -⟩ := blank_of_jsWs b (i + 1 + n.length + 1)
  by_cases hcolon : b[jsWs b (i + 1 + n.length + 1)]? = some 58
  swap
  · rw [if_pos hcolon]
    exact ⟨_, rfl, nofun⟩
  rw [if_neg (not_not.2 hcolon)]
  obtain ⟨w', hdropw', hw', hposw', -⟩ := blank_of_jsWs b (jsWs b (i + 1 + n.length + 1) + 1)
  -- the bytes up to the colon are the name
  have hname : Name (34 :: n ++ 34 :: w ++ [58]) k := by
    have h : Name ([] ++ 34 :: n ++ 34 :: w ++ [58]) k := .mk Blank.nil hn hw
    exact h
  generalize hN : (34 :: n ++ 34 :: w ++ [58] : List Int) = name at hname
  have hlenN : name.length = n.length + w.length + 3 := by
    rw [← hN]
    simp only [List.length_append, List.length_cons, List.length_nil]
    omega
  have hposN : jsWs b (i + 1 + n.length + 1) + 1 = i + name.length := by omega
  rw [hposN] at hdropw' hposw' ⊢
  have hdropN : b.drop i = name ++ b.drop (i + name.length) := by
    rw [drop_of_getElem? hquote, hdropn, hdropw, drop_of_getElem? hcolon, hposN, ← hN]
    simp only [List.append_assoc, List.cons_append, List.nil_append]
  obtain ⟨p, hp, hread⟩ := hvalue hi (jsWs b (i + name.length)) (by omega) (depth + 1)
  rw [hp]
  simp only [Option.bind_eq_bind, Option.bind_some]
  by_cases herr : p.err = []
  swap
  · rw [if_pos herr]
    exact ⟨p, rfl, fun h => absurd h herr⟩
  rw [if_neg (not_not.2 herr)]
  obtain ⟨hdepth, t, v, hdrop, hv, rfl⟩ := hread herr
  obtain ⟨u, hpad, hdropu, hj⟩ := padded_of_value hdrop hv
  have hpad' : Padded .checked (32 - (depth + 1)) (i + name.length) (w' ++ u)
      (.mk v (jsWs b (i + name.length)) (jsWs b (i + name.length) + t.length)) := by
    apply Padded.blank hw'
    rw [← hposw']
    exact hpad
  have hposM : jsWs b (i + name.length) + u.length = i + (name ++ (w' ++ u)).length := by
    rw [hposw']
    simp only [List.length_append]
    omega
  have hdropM : b.drop i = name ++ (w' ++ u) ++ b.drop (i + (name ++ (w' ++ u)).length) := by
    rw [← hposM, hdropN, hdropw', hdropu]
    simp only [List.append_assoc]
  generalize hx : JsonAt.mk v (jsWs b (i + name.length)) (jsWs b (i + name.length) + t.length) = x
    at hpad'
  generalize w' ++ u = m at hpad' hposM hdropM
  have hnd1 : (ks ++ [k]).Nodup := by
    rw [List.nodup_append]
    refine ⟨hnd, by simp, ?_⟩
    rintro a ha c hc rfl
    rw [List.mem_singleton] at hc
    subst hc
    exact hdup ((jsHas_iff ks a 0).2 ha)
  simp only [jsRead, hj, hx, hposM]
  by_cases hcomma : b[i + (name ++ m).length]? = some 44
  · rw [if_pos hcomma]
    obtain ⟨w2, hdrop2, hw2, hpos2, -⟩ := blank_of_jsWs b (i + (name ++ m).length + 1)
    obtain ⟨q, hq, hreadq⟩ := hlater hi (jsWs b (i + (name ++ m).length + 1))
      (by omega) start depth (ks ++ [k]) (vs ++ [x]) false hnd1
    refine ⟨q, hq, fun hqerr => .inr ⟨hdepth, ?_⟩⟩
    rcases hreadq hqerr with ⟨hfalse, -⟩ | ⟨-, r, ks', vs', hmembers, hdropr, hnd', hlen, rfl⟩
    · cases hfalse
    · have hlenr : i + (name ++ m ++ 44 :: (w2 ++ r)).length =
          jsWs b (i + (name ++ m).length + 1) + r.length := by
        rw [hpos2]
        simp only [List.length_append, List.length_cons]
        omega
      refine ⟨name ++ m ++ 44 :: (w2 ++ r), k :: ks', x :: vs', ?_, ?_, ?_, ?_, ?_⟩
      · refine .more hname hpad' (Members.blank hw2 ?_)
        rw [← hpos2]
        exact hmembers
      · rw [hlenr, hdropM, drop_of_getElem? hcomma, hdrop2, hdropr]
        simp only [List.append_assoc, List.cons_append]
      · rw [← List.append_cons] at hnd'
        exact hnd'
      · simp only [List.length_append, List.length_cons, List.length_nil] at hlen ⊢
        omega
      · rw [hlenr]
        simp only [jsRead, List.append_assoc, List.cons_append, List.nil_append]
  · rw [if_neg hcomma]
    by_cases hend : b[i + (name ++ m).length]? = some 125
    · rw [if_pos hend]
      refine ⟨_, rfl, fun _ => .inr ⟨hdepth, name ++ m, [k], [x], .last hname hpad', ?_, hnd1, ?_,
        rfl⟩⟩
      · rw [hdropM, drop_of_getElem? hend]
      · simp only [List.length_cons, List.length_nil]
        omega
    · rw [if_neg hend]
      exact ⟨_, rfl, nofun⟩

/-- A word stands at `i` only where its first byte does. -/
theorem head_of_jsWord {w : String} {c d : Int} {r : List Int} (hget : b[i]? = some c)
    (hw : bytesOf w = d :: r) (hcd : c ≠ d) : jsWord b i w = false := by
  rw [Bool.eq_false_iff]
  intro h
  obtain ⟨s, hs⟩ := jsWord_iff.1 h
  rw [hw, List.cons_append] at hs
  rw [getElem?_of_drop hs.symm, Option.some.injEq] at hget
  exact hcd hget.symm

theorem drop_of_jsWord {w : String} (h : jsWord b i w = true) :
    b.drop i = bytesOf w ++ b.drop (i + (bytesOf w).length) := by
  obtain ⟨s, hs⟩ := jsWord_iff.1 h
  rw [← hs, drop_add hs.symm]

theorem valueReads_step (harray : i < b.length → ∀ j, i < j → ArrayReads b j)
    (hobject : i < b.length → ∀ j, i < j → ObjectReads b j) : ValueReads b i := by
  intro depth
  rw [jsValue_eq, jsValueStep]
  by_cases hdeep : depth > 32
  · rw [if_pos hdeep]
    exact ⟨_, rfl, nofun⟩
  rw [if_neg hdeep]
  have hdepth : depth ≤ 32 := Nat.le_of_not_lt hdeep
  cases hget : b[i]? with
  | none => exact ⟨_, rfl, nofun⟩
  | some c =>
    have hdrop := drop_of_getElem? hget
    have hi := lt_of_drop hdrop
    obtain ⟨w, hdropw, hw, hposw, -⟩ := blank_of_jsWs b (i + 1)
    simp only
    by_cases hbrace : c = 123
    · rw [if_pos hbrace]
      obtain ⟨p, hp, hread⟩ :=
        hobject hi (jsWs b (i + 1)) (by omega) i depth [] [] true List.nodup_nil
      refine ⟨p, hp, fun herr => ⟨hdepth, ?_⟩⟩
      rcases hread herr with
        ⟨-, hend, rfl⟩ | ⟨hroom, t, ks, vs, hmembers, hend, hnd, hlen, rfl⟩
      · have hlenw : jsWs b (i + 1) + 1 = i + (123 :: w ++ [125]).length := by
          rw [hposw]
          simp only [List.length_append, List.length_cons, List.length_nil]
          omega
        refine ⟨123 :: w ++ [125], .jObj [] [], ?_, .emptyObj hw, by rw [hlenw]⟩
        rw [← hlenw, hdrop, hdropw, drop_of_getElem? hend, hbrace]
        simp only [List.append_assoc, List.cons_append, List.nil_append]
      · have hlent : jsWs b (i + 1) + t.length + 1 = i + (123 :: (w ++ t) ++ [125]).length := by
          rw [hposw]
          simp only [List.length_append, List.length_cons, List.length_nil]
          omega
        have hroom' : 32 - depth = 32 - (depth + 1) + 1 := by omega
        refine ⟨123 :: (w ++ t) ++ [125], .jObj ks vs, ?_, ?_, by rw [hlent]; rfl⟩
        · rw [← hlent, hdrop, hdropw, hend, hbrace]
          simp only [List.append_assoc, List.cons_append, List.nil_append]
        · rw [hroom']
          refine .obj (Members.blank hw ?_) hnd (by simpa [Limits.checked] using hlen)
          rw [← hposw]
          exact hmembers
    rw [if_neg hbrace]
    by_cases hbracket : c = 91
    · rw [if_pos hbracket]
      obtain ⟨p, hp, hread⟩ := harray hi (jsWs b (i + 1)) (by omega) i depth [] true
      refine ⟨p, hp, fun herr => ⟨hdepth, ?_⟩⟩
      rcases hread herr with ⟨-, hend, rfl⟩ | ⟨hroom, t, xs, hitems, hend, hlen, rfl⟩
      · have hlenw : jsWs b (i + 1) + 1 = i + (91 :: w ++ [93]).length := by
          rw [hposw]
          simp only [List.length_append, List.length_cons, List.length_nil]
          omega
        refine ⟨91 :: w ++ [93], .jArr [], ?_, .emptyArr hw, by rw [hlenw]⟩
        rw [← hlenw, hdrop, hdropw, drop_of_getElem? hend, hbracket]
        simp only [List.append_assoc, List.cons_append, List.nil_append]
      · have hlent : jsWs b (i + 1) + t.length + 1 = i + (91 :: (w ++ t) ++ [93]).length := by
          rw [hposw]
          simp only [List.length_append, List.length_cons, List.length_nil]
          omega
        have hroom' : 32 - depth = 32 - (depth + 1) + 1 := by omega
        refine ⟨91 :: (w ++ t) ++ [93], .jArr xs, ?_, ?_, by rw [hlent]; rfl⟩
        · rw [← hlent, hdrop, hdropw, hend, hbracket]
          simp only [List.append_assoc, List.cons_append, List.nil_append]
        · rw [hroom']
          refine .arr (Items.blank hw ?_) (by simpa [Limits.checked] using hlen)
          rw [← hposw]
          exact hitems
    rw [if_neg hbracket]
    by_cases hquote : c = 34
    · rw [if_pos hquote]
      by_cases hstr : (jsString b (i + 1) []).err = []
      · obtain ⟨n, k, hn, hdropn, hk⟩ := chars_of_jsString hstr
        have hlenn : i + 1 + n.length + 1 = i + (34 :: n ++ [34]).length := by
          simp only [List.length_append, List.length_cons, List.length_nil]
          omega
        simp only [hk, ne_eq, not_true_eq_false, if_false, List.nil_append]
        refine ⟨_, rfl, fun _ => ⟨hdepth, 34 :: n ++ [34], .jStr k, ?_, .str hn, by rw [hlenn]⟩⟩
        rw [← hlenn, hdrop, hdropn, hquote]
        simp only [List.append_assoc, List.cons_append, List.nil_append]
      · simp only [if_pos hstr]
        exact ⟨_, rfl, fun h => absurd h hstr⟩
    rw [if_neg hquote]
    by_cases htrue : jsWord b i "true" = true
    · rw [if_pos htrue]
      exact ⟨_, rfl, fun _ => ⟨hdepth, _, _, drop_of_jsWord htrue, .true, rfl⟩⟩
    rw [if_neg htrue]
    by_cases hfalse : jsWord b i "false" = true
    · rw [if_pos hfalse]
      exact ⟨_, rfl, fun _ => ⟨hdepth, _, _, drop_of_jsWord hfalse, .false, rfl⟩⟩
    rw [if_neg hfalse]
    by_cases hnull : jsWord b i "null" = true
    · rw [if_pos hnull]
      exact ⟨_, rfl, fun _ => ⟨hdepth, _, _, drop_of_jsWord hnull, .null, rfl⟩⟩
    rw [if_neg hnull]
    by_cases hnum : c = 45 ∨ (c ≥ 48 ∧ c ≤ 57)
    · rw [if_pos hnum]
      refine ⟨_, rfl, fun herr => ?_⟩
      obtain ⟨neg, ds, hds, hdropds, heq⟩ := numeral_of_jsNumber herr
      exact ⟨hdepth, _, _, hdropds, Value.signed neg hds, heq⟩
    · rw [if_neg hnum]
      exact ⟨_, rfl, nofun⟩

/-! ## Every position -/

theorem reads (b : List Int) (i : Nat) : ValueReads b i ∧ ArrayReads b i ∧ ObjectReads b i := by
  induction hn : b.length - i using Nat.strong_induction_on generalizing i with
  | _ n ih =>
    have hlater : i < b.length → ∀ j, i < j →
        ValueReads b j ∧ ArrayReads b j ∧ ObjectReads b j := by
      intro hi j hj
      exact ih (b.length - j) (by omega) j rfl
    have hvalue : ValueReads b i :=
      valueReads_step (fun hi j hj => (hlater hi j hj).2.1) (fun hi j hj => (hlater hi j hj).2.2)
    exact ⟨hvalue, arrayReads_step hvalue fun hi j hj => (hlater hi j hj).2.1,
      objectReads_step (fun hi j hj => (hlater hi j hj).1) fun hi j hj => (hlater hi j hj).2.2⟩

end Verify
