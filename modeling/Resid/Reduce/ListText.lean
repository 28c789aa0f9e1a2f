import Mathlib.Data.Nat.Bitwise
import Resid.Lib.FixedWidth
import Resid.Runtime.Text

/-!
# Lists carried as text

A list value is its item count, then each item's end offset (8 hex digits, from the start of
the items), then the items.  An item is found without walking the ones before it, and two
lists are joined by shifting the second one's offsets.

    rdEnc (A ++ x :: B) holds |A ++ x| at place |A|, and x from |A| to there   (at_end, at_item)
    rdDec (rdEnc xs) = xs                                                     (rdDec_rdEnc)
    rdNth (rdEnc xs) i = xs[i], or the mark out of range                      (rdNth_rdEnc)
    rdCat (rdEnc xs) (rdEnc ys) = rdEnc (xs ++ ys)                            (rdCat_rdEnc)

An offset wraps at 2 ^ 32, so the facts hold for items of less than 2 ^ 32 codepoints in all.
-/

namespace Reduce

open Runtime

/-! ## The encoding -/

/-- The digits of `x` in base 16, `left` of them. -/
def rdHex8At (x : Nat) : Nat → StrBuf
  | 0 => []
  | left + 1 =>
    let d := (x >>> (4 * left)) &&& 15
    codeChar (if d < 10 then 48 + d else 87 + d : Nat) :: rdHex8At x left

def rdHex8 (x : Nat) : Str := rdHex8At x 8

/-- The number in the `left` digits at `pos`, after `acc`. -/
def rdHexAt (v : Str) : Nat → Nat → Nat → Nat
  | 0, _, acc => acc
  | left + 1, pos, acc =>
    let c := (strCharAt v pos).toNat
    rdHexAt v left (pos + 1) ((acc <<< 4) ||| (if c ≥ 97 then c - 87 else c - 48))

/-- Item count and where the offsets start. -/
structure RdL where
  n : Nat
  pos : Nat

def rdDigits (v : Str) : Nat → Nat → Nat → Nat
  | 0, _, acc => acc
  | left + 1, i, acc => rdDigits v left (i + 1) (acc * 10 + (strCharAt v i).toNat - 48)

/-- The first place of `c`, or -1. -/
def strFindChar (v : Str) (c : Char) : Int :=
  match v.findIdx? (· == c) with
  | some i => i
  | none => -1

def rdHead (v : Str) : RdL :=
  if v = [] then ⟨0, 0⟩
  else
    let colon := strFindChar v ':'
    ⟨rdDigits v colon.toNat 0 0, (colon + 1).toNat⟩

/-- The end offsets of the items after `stop`. -/
def rdOffs : List Str → Nat → Str
  | [], _ => []
  | x :: xs, stop => rdHex8 (stop + strLen x) ++ rdOffs xs (stop + strLen x)

def rdEnc (items : List Str) : Str :=
  if items = [] then []
  else intText items.length ++ ":".toList ++ rdOffs items 0 ++ items.flatten

/-- The `left` items from item `i` on, which starts at `start`. -/
def rdDecAt (v : Str) (h : RdL) : Nat → Nat → Nat → List Str
  | 0, _, _ => []
  | left + 1, i, start =>
    let base := h.pos + 8 * h.n
    let stop := rdHexAt v 8 (h.pos + 8 * i) 0
    strSlice v (base + start) (base + stop) :: rdDecAt v h left (i + 1) stop

def rdDec (v : Str) : List Str := rdDecAt v (rdHead v) (rdHead v).n 0 0

/-- What stands for a missing item. -/
def rdNoItem : Str := [codeChar 1]

def rdNth (v : Str) (i : Int) : Str :=
  let h := rdHead v
  if i < 0 ∨ i ≥ h.n then rdNoItem
  else
    let k := i.toNat
    let base := h.pos + 8 * h.n
    let start := if k = 0 then 0 else rdHexAt v 8 (h.pos + 8 * (k - 1)) 0
    strSlice v (base + start) (base + rdHexAt v 8 (h.pos + 8 * k) 0)

def rdCount (v : Str) : Nat := (rdHead v).n

/-- The offsets of `b`'s `left` items from item `i` on, `shift` more each. -/
def rdShiftOffs (b : Str) (hb : RdL) (shift : Nat) : Nat → Nat → Str
  | 0, _ => []
  | left + 1, i => rdHex8 (rdHexAt b 8 (hb.pos + 8 * i) 0 + shift) ++ rdShiftOffs b hb shift left (i + 1)

def rdCat (a b : Str) : Str :=
  if a = [] then b
  else if b = [] then a
  else
    let ha := rdHead a
    let hb := rdHead b
    let ba := ha.pos + 8 * ha.n
    let bb := hb.pos + 8 * hb.n
    let la := rdHexAt a 8 (ha.pos + 8 * (ha.n - 1)) 0
    intText (ha.n + hb.n) ++ ":".toList ++ strSlice a ha.pos ba ++ rdShiftOffs b hb la hb.n 0 ++
      strSlice a ba (strLen a) ++ strSlice b bb (strLen b)

def rdPush (v item : Str) : Str := rdCat v (rdEnc [item])

/-! ## Eight hex digits -/

theorem codeChar_hex {d : Nat} (h : d < 16) :
    (codeChar (if d < 10 then 48 + d else 87 + d : Nat)).toNat =
      if d < 10 then 48 + d else 87 + d := by
  have hall : ∀ d < 16, (codeChar (if d < 10 then 48 + d else 87 + d : Nat)).toNat =
      if d < 10 then 48 + d else 87 + d := by decide
  exact hall d h

theorem length_rdHex8At (x left : Nat) : (rdHex8At x left).length = left := by
  induction left with
  | zero => rfl
  | succ left ih => rw [rdHex8At, List.length_cons, ih]

theorem length_rdHex8 (x : Nat) : (rdHex8 x).length = 8 := length_rdHex8At x 8

variable {r v : Str} {xs : List Str}

/-- Reading the digits back, most significant first. -/
theorem rdHexAt_digits (x left : Nat) {pos acc : Nat} (h : v.drop pos = rdHex8At x left ++ r) :
    rdHexAt v left pos acc = acc * 16 ^ left + x % 16 ^ left := by
  induction left generalizing pos acc with
  | zero => simp [rdHexAt, Nat.mod_one]
  | succ left ih =>
    rw [rdHex8At, List.cons_append] at h
    have hd : (x >>> (4 * left)) &&& 15 = x / 16 ^ left % 16 := by
      rw [Nat.shiftRight_eq_div_pow, Nat.pow_mul]
      exact Nat.and_two_pow_sub_one_eq_mod _ 4
    have hlt : x / 16 ^ left % 16 < 16 := Nat.mod_lt _ (by decide)
    rw [hd] at h
    have hch := strCharAt_of_drop h
    rw [codeChar_hex hlt] at hch
    have hval : (if (strCharAt v pos).toNat ≥ 97 then (strCharAt v pos).toNat - 87
        else (strCharAt v pos).toNat - 48) = x / 16 ^ left % 16 := by
      rw [hch, Int.toNat_natCast]
      split_ifs <;> omega
    have hor : (acc <<< 4) ||| (x / 16 ^ left % 16) = acc * 16 + x / 16 ^ left % 16 := by
      rw [Nat.shiftLeft_eq]
      exact FixedWidth.shl_or_eq_add acc (n := 4) hlt
    have hmod : x % 16 ^ (left + 1) = x / 16 ^ left % 16 * 16 ^ left + x % 16 ^ left := by
      rw [Nat.pow_succ, Nat.mod_mul, Nat.mul_comm, Nat.add_comm]
    simp only [rdHexAt]
    rw [hval, hor, ih (drop_succ_of_drop h), hmod, Nat.pow_succ]
    ring

theorem rdHexAt_rdHex8 {x pos : Nat} (h : v.drop pos = rdHex8 x ++ r) (hx : x < 4294967296) :
    rdHexAt v 8 pos 0 = x := by
  rw [rdHexAt_digits x 8 h, Nat.zero_mul, Nat.zero_add]
  exact Nat.mod_eq_of_lt hx

/-! ## The head -/

theorem rdDigits_eq (ds : Str) (hds : Decimal.AllDigits ds) {i acc : Nat} (h : v.drop i = ds ++ r) :
    rdDigits v ds.length i acc = acc * 10 ^ ds.length + Decimal.value ds := by
  induction ds generalizing i acc with
  | nil => simp [rdDigits, Decimal.value]
  | cons c ds ih =>
    have hc := (Decimal.isDigit_iff c).1 (hds c List.mem_cons_self)
    have hrest : Decimal.AllDigits ds := fun d hd => hds d (List.mem_cons_of_mem c hd)
    have hch := strCharAt_of_drop h
    rw [List.length_cons, rdDigits, ih hrest (drop_succ_of_drop h), hch, Int.toNat_natCast,
      Decimal.value_cons, Decimal.digitOf, Nat.add_sub_assoc hc.1, Nat.pow_succ]
    ring

theorem colon_not_digit {ds : Str} (hds : Decimal.AllDigits ds) : ':' ∉ ds := by
  intro h
  exact absurd (hds ':' h) (by decide)

theorem strFindChar_append {ds : Str} {c : Char} (h : c ∉ ds) :
    strFindChar (ds ++ c :: r) c = ds.length := by
  have hidx : (ds ++ c :: r).findIdx? (· == c) = some ds.length := by
    rw [List.findIdx?_append, List.findIdx?_eq_none_iff.2]
    · simp [List.findIdx?_cons]
    · intro d hd
      simp only [beq_eq_false_iff_ne]
      exact fun he => h (he ▸ hd)
  rw [strFindChar, hidx]

/-- The text before the offsets. -/
def countText (n : Nat) : Str := Decimal.text n ++ ":".toList

theorem rdHead_countText (n : Nat) (r : Str) :
    rdHead (countText n ++ r) = ⟨n, (countText n).length⟩ := by
  have hds := Decimal.allDigits_text n
  have hv : countText n ++ r = Decimal.text n ++ ':' :: r := by simp [countText]
  have hfind := strFindChar_append (r := r) (colon_not_digit hds)
  have hnum : rdDigits (Decimal.text n ++ ':' :: r) (Decimal.text n).length 0 0 = _ :=
    rdDigits_eq (Decimal.text n) hds rfl
  have hlen : (countText n).length = (Decimal.text n).length + 1 := by simp [countText]
  rw [rdHead, if_neg (by simp [countText]), hv, hfind, hlen]
  simp only [Int.toNat_natCast]
  rw [hnum, Decimal.value_text, Nat.zero_mul, Nat.zero_add]
  rfl

theorem rdEnc_eq (h : xs ≠ []) : rdEnc xs = countText xs.length ++ (rdOffs xs 0 ++ xs.flatten) := by
  rw [rdEnc, if_neg h, intText_natCast, countText]
  simp

theorem rdHead_rdEnc (h : xs ≠ []) :
    rdHead (rdEnc xs) = ⟨xs.length, (countText xs.length).length⟩ := by
  rw [rdEnc_eq h, rdHead_countText]

theorem rdEnc_ne_nil (h : xs ≠ []) : rdEnc xs ≠ [] := by
  rw [rdEnc_eq h]
  simp [countText]

theorem rdCount_rdEnc (xs : List Str) : rdCount (rdEnc xs) = xs.length := by
  by_cases h : xs = []
  · subst h
    rfl
  · rw [rdCount, rdHead_rdEnc h]

/-! ## The offsets and the items -/

@[simp] theorem rdOffs_nil (stop : Nat) : rdOffs [] stop = [] := rfl

theorem rdOffs_cons (x : Str) (xs : List Str) (stop : Nat) :
    rdOffs (x :: xs) stop = rdHex8 (stop + strLen x) ++ rdOffs xs (stop + strLen x) := rfl

theorem rdOffs_append (A B : List Str) (start : Nat) :
    rdOffs (A ++ B) start = rdOffs A start ++ rdOffs B (start + A.flatten.length) := by
  induction A generalizing start with
  | nil => simp
  | cons x A ih =>
    rw [List.cons_append, rdOffs_cons, rdOffs_cons, ih, List.append_assoc, List.flatten_cons,
      List.length_append, Nat.add_assoc]
    rfl

theorem length_rdOffs (xs : List Str) (start : Nat) : (rdOffs xs start).length = 8 * xs.length := by
  induction xs generalizing start with
  | nil => rfl
  | cons x xs ih =>
    rw [rdOffs_cons, List.length_append, length_rdHex8, ih, List.length_cons]
    omega

/-- Where the items of an encoded list start. -/
def itemsAt (xs : List Str) : Nat := (countText xs.length).length + 8 * xs.length

theorem drop_offs (A B : List Str) (h : A ++ B ≠ []) :
    (rdEnc (A ++ B)).drop ((countText (A ++ B).length).length + 8 * A.length) =
      rdOffs B A.flatten.length ++ (A ++ B).flatten := by
  rw [rdEnc_eq h, ← List.drop_drop, List.drop_left, rdOffs_append, Nat.zero_add,
    List.append_assoc, ← length_rdOffs A 0, List.drop_left]

theorem drop_items (A B : List Str) (h : A ++ B ≠ []) :
    (rdEnc (A ++ B)).drop (itemsAt (A ++ B) + A.flatten.length) = B.flatten := by
  rw [rdEnc_eq h, itemsAt, Nat.add_assoc, ← List.drop_drop, List.drop_left,
    ← length_rdOffs (A ++ B) 0, ← List.drop_drop, List.drop_left, List.flatten_append,
    List.drop_left]

/-- The end offset of the item after `A`. -/
theorem at_end (A : List Str) (x : Str) (B : List Str)
    (h : (A ++ x :: B).flatten.length < 4294967296) :
    rdHexAt (rdEnc (A ++ x :: B)) 8 ((countText (A ++ x :: B).length).length + 8 * A.length) 0 =
      A.flatten.length + strLen x := by
  have hdrop := drop_offs A (x :: B) (by simp)
  refine rdHexAt_rdHex8 hdrop ?_
  simp only [List.flatten_append, List.flatten_cons, List.length_append] at h
  unfold strLen
  omega

/-- The item after `A`. -/
theorem at_item (A : List Str) (x : Str) (B : List Str) :
    strSlice (rdEnc (A ++ x :: B)) (itemsAt (A ++ x :: B) + A.flatten.length)
      (itemsAt (A ++ x :: B) + (A.flatten.length + strLen x)) = x := by
  rw [strSlice, drop_items A (x :: B) (by simp), List.flatten_cons]
  have hsub : itemsAt (A ++ x :: B) + (A.flatten.length + strLen x) -
      (itemsAt (A ++ x :: B) + A.flatten.length) = x.length := by
    unfold strLen
    omega
  rw [hsub, List.take_left]

/-! ## Reading back -/

theorem rdDecAt_rdEnc (A B : List Str) (h : (A ++ B).flatten.length < 4294967296) :
    rdDecAt (rdEnc (A ++ B)) ⟨(A ++ B).length, (countText (A ++ B).length).length⟩ B.length
      A.length A.flatten.length = B := by
  induction B generalizing A with
  | nil => rfl
  | cons x B ih =>
    have hcat : A ++ [x] ++ B = A ++ x :: B := by simp
    have hrest := ih (A ++ [x]) (by rw [hcat]; exact h)
    rw [hcat] at hrest
    have hlen : (A ++ [x]).flatten.length = A.flatten.length + strLen x := by
      simp [strLen]
    have hnext : (A ++ [x]).length = A.length + 1 := by simp
    rw [hlen, hnext] at hrest
    rw [List.length_cons, rdDecAt]
    rw [at_end A x B h, hrest]
    exact congrArg (· :: B) (at_item A x B)

theorem rdDec_rdEnc (xs : List Str) (h : xs.flatten.length < 4294967296) :
    rdDec (rdEnc xs) = xs := by
  by_cases hx : xs = []
  · subst hx
    rfl
  · have hdec := rdDecAt_rdEnc [] xs h
    rw [rdDec, rdHead_rdEnc hx]
    exact hdec

theorem rdNth_rdEnc (xs : List Str) (h : xs.flatten.length < 4294967296) {i : Nat}
    (hi : i < xs.length) : rdNth (rdEnc xs) i = xs[i] := by
  obtain ⟨A, x, B, rfl, rfl⟩ : ∃ A x B, xs = A ++ x :: B ∧ A.length = i :=
    ⟨xs.take i, xs[i], xs.drop (i + 1), by simp, by rw [List.length_take]; omega⟩
  have hstart : (if A.length = 0 then 0 else rdHexAt (rdEnc (A ++ x :: B)) 8
      ((countText (A ++ x :: B).length).length + 8 * (A.length - 1)) 0) = A.flatten.length := by
    rcases List.eq_nil_or_concat' A with rfl | ⟨A', a, rfl⟩
    · rfl
    · have hcat : A' ++ [a] ++ x :: B = A' ++ a :: (x :: B) := by simp
      have hend := at_end A' a (x :: B) (by rw [← hcat]; exact h)
      rw [← hcat] at hend
      have hpred : (A' ++ [a]).length - 1 = A'.length := by simp
      rw [hpred, if_neg (by simp), hend]
      simp [strLen]
  rw [rdNth, rdHead_rdEnc (by simp)]
  simp only [Int.toNat_natCast]
  rw [if_neg (by omega), hstart, at_end A x B h]
  have hitem := at_item A x B
  rw [itemsAt] at hitem
  rw [hitem]
  simp

theorem rdNth_rdEnc_out (xs : List Str) {i : Int} (hi : i < 0 ∨ xs.length ≤ i) :
    rdNth (rdEnc xs) i = rdNoItem := by
  have hn := rdCount_rdEnc xs
  unfold rdCount at hn
  rw [rdNth, hn, if_pos hi]

/-! ## Joining -/

theorem rdShiftOffs_rdEnc (A B : List Str) (h : (A ++ B).flatten.length < 4294967296)
    (shift : Nat) :
    rdShiftOffs (rdEnc (A ++ B)) ⟨(A ++ B).length, (countText (A ++ B).length).length⟩ shift
      B.length A.length = rdOffs B (shift + A.flatten.length) := by
  induction B generalizing A with
  | nil => rfl
  | cons x B ih =>
    have hcat : A ++ [x] ++ B = A ++ x :: B := by simp
    have hrest := ih (A ++ [x]) (by rw [hcat]; exact h)
    rw [hcat] at hrest
    have hlen : (A ++ [x]).flatten.length = A.flatten.length + strLen x := by
      simp [strLen]
    have hnext : (A ++ [x]).length = A.length + 1 := by simp
    rw [hlen, hnext] at hrest
    rw [List.length_cons, rdShiftOffs, rdOffs]
    rw [at_end A x B h, hrest, Nat.add_comm _ shift, Nat.add_assoc]

theorem rdCat_rdEnc (xs ys : List Str) (hx : xs.flatten.length < 4294967296)
    (hy : ys.flatten.length < 4294967296) : rdCat (rdEnc xs) (rdEnc ys) = rdEnc (xs ++ ys) := by
  by_cases hx0 : xs = []
  · subst hx0
    rfl
  by_cases hy0 : ys = []
  · subst hy0
    rw [rdCat, if_neg (rdEnc_ne_nil hx0), List.append_nil]
    rfl
  rw [rdCat, if_neg (rdEnc_ne_nil hx0), if_neg (rdEnc_ne_nil hy0), rdHead_rdEnc hx0,
    rdHead_rdEnc hy0]
  simp only
  have hlast : rdHexAt (rdEnc xs) 8 ((countText xs.length).length + 8 * (xs.length - 1)) 0 =
      xs.flatten.length := by
    rcases List.eq_nil_or_concat' xs with rfl | ⟨A, a, rfl⟩
    · exact absurd rfl hx0
    · have hend := at_end A a [] hx
      have hpred : (A ++ [a]).length - 1 = A.length := by simp
      rw [hpred, hend]
      simp [strLen]
  have hshift := rdShiftOffs_rdEnc [] ys hy xs.flatten.length
  simp only [List.nil_append, List.length_nil, List.flatten_nil, Nat.add_zero] at hshift
  have hoffs : strSlice (rdEnc xs) (countText xs.length).length
      ((countText xs.length).length + 8 * xs.length) = rdOffs xs 0 := by
    have hdrop := drop_offs [] xs hx0
    simp only [List.nil_append, List.length_nil, Nat.mul_zero, Nat.add_zero, List.flatten_nil]
      at hdrop
    rw [strSlice, hdrop, Nat.add_sub_cancel_left, ← length_rdOffs xs 0, List.take_left]
  have hitems : ∀ zs : List Str, zs ≠ [] → strSlice (rdEnc zs)
      ((countText zs.length).length + 8 * zs.length) (strLen (rdEnc zs)) = zs.flatten := by
    intro zs hz
    have hdrop := drop_items [] zs hz
    simp only [List.nil_append, List.flatten_nil, List.length_nil, Nat.add_zero] at hdrop
    rw [strSlice, show (countText zs.length).length + 8 * zs.length = itemsAt zs from rfl, hdrop]
    refine List.take_of_length_le ?_
    have hlen := congrArg List.length hdrop
    rw [List.length_drop] at hlen
    unfold strLen
    omega
  rw [hlast, hshift, hoffs, hitems xs hx0, hitems ys hy0, rdEnc, if_neg (by simp [hx0]),
    rdOffs_append, List.flatten_append, List.length_append, Nat.zero_add]
  simp

theorem rdPush_rdEnc (xs : List Str) (x : Str) (hx : xs.flatten.length < 4294967296)
    (hone : strLen x < 4294967296) : rdPush (rdEnc xs) x = rdEnc (xs ++ [x]) :=
  rdCat_rdEnc xs [x] hx (by simpa [strLen] using hone)

/-- The list encoding is exact: decoding, indexing, counting, joining and pushing agree with
the lists. -/
theorem rdEnc_exact (xs ys : List Str) (hx : xs.flatten.length < 4294967296)
    (hy : ys.flatten.length < 4294967296) :
    rdDec (rdEnc xs) = xs ∧
    (∀ i, (hi : i < xs.length) → rdNth (rdEnc xs) i = xs[i]) ∧
    (∀ i : Int, i < 0 ∨ xs.length ≤ i → rdNth (rdEnc xs) i = rdNoItem) ∧
    rdCount (rdEnc xs) = xs.length ∧
    rdCat (rdEnc xs) (rdEnc ys) = rdEnc (xs ++ ys) ∧
    ∀ y, strLen y < 4294967296 → rdPush (rdEnc xs) y = rdEnc (xs ++ [y]) :=
  ⟨rdDec_rdEnc xs hx, fun _ hi => rdNth_rdEnc xs hx hi, fun _ hi => rdNth_rdEnc_out xs hi,
    rdCount_rdEnc xs, rdCat_rdEnc xs ys hx hy, fun y h => rdPush_rdEnc xs y hx h⟩

/-- A list with an empty item and an item that is itself an encoding. -/
theorem rdEnc_exact_nested :
    rdDec (rdEnc [[], rdEnc ["a:".toList, []]]) = [[], rdEnc ["a:".toList, []]] ∧
    rdCat (rdEnc [[], rdEnc ["a:".toList, []]]) (rdEnc [[]]) =
      rdEnc ([[], rdEnc ["a:".toList, []]] ++ [[]]) := by
  have h := rdEnc_exact [[], rdEnc ["a:".toList, []]] [[]] (by decide) (by decide)
  exact ⟨h.1, h.2.2.2.2.1⟩

example : rdEnc ["abc".toList, "x".toList] = "2:0000000300000004abcx".toList := by decide

end Reduce
