import Mathlib.Data.List.Infix
import Mathlib.Data.Nat.Bits
import Mathlib.Tactic.Ring
import Mathlib.Tactic.Common

/-!
# Prefix codes

A code gives every symbol a word, and no word is a prefix of another's.  What is left of a message
once no word stands at its head is its tail.

    encode s ++ r = encode t ++ r' → Tail r' → ∃ u, t = s ++ u ∧ r = encode u ++ r'  (encode_cut)
    number (bits n v) = v % 2 ^ n                                            (number_bits)
    bits w.length (number w) = w                                             (bits_number)
    allApart (table.map (range top)) → no word of the table begins with another   (eq_of_isStart)

## Algorithm

Words of bits are numbers of a given width, most significant bit first.  The words of at most `top`
bits that begin with a word are a range of numbers of `top` bits, so words whose ranges are
disjoint are no prefixes of each other.
-/

/-- No word is empty or a prefix of another. -/
structure PrefixCode (σ α : Type) where
  word : σ → List α
  word_ne_nil : ∀ s, word s ≠ []
  free : ∀ s t, word s <+: word t → s = t

namespace PrefixCode

section Codes

variable {σ α : Type} (c : PrefixCode σ α)

def encode (l : List σ) : List α := l.flatMap c.word

/-- No word stands at the head. -/
def Tail (r : List α) : Prop := ∀ s, ¬ c.word s <+: r

@[simp] theorem encode_nil : c.encode [] = [] := rfl

@[simp] theorem encode_cons (s : σ) (l : List σ) : c.encode (s :: l) = c.word s ++ c.encode l := rfl

variable {c}

/-- At most one word stands at the head. -/
theorem head_unique {s t : σ} {m : List α} (hs : c.word s <+: m) (ht : c.word t <+: m) : s = t := by
  rcases List.prefix_or_prefix_of_prefix hs ht with h | h
  · exact c.free s t h
  · exact (c.free t s h).symm

/-- A message is cut into words in one way, as far as they go. -/
theorem encode_cut {s t : List σ} {r r' : List α} (h : c.encode s ++ r = c.encode t ++ r')
    (hr' : c.Tail r') : ∃ u, t = s ++ u ∧ r = c.encode u ++ r' := by
  induction s generalizing t with
  | nil => exact ⟨t, rfl, h⟩
  | cons x s ih =>
    cases t with
    | nil =>
      refine absurd ?_ (hr' x)
      rw [encode_nil, List.nil_append, encode_cons, List.append_assoc] at h
      exact ⟨_, h⟩
    | cons y t =>
      rw [encode_cons, encode_cons, List.append_assoc, List.append_assoc] at h
      obtain rfl : x = y := head_unique ⟨_, rfl⟩ ⟨_, h.symm⟩
      obtain ⟨u, rfl, hrest⟩ := ih (List.append_cancel_left h)
      exact ⟨u, rfl, hrest⟩

end Codes

/-! ## Words of bits -/

/-- A number read bit by bit, most significant first. -/
def numberFrom (acc : Nat) (w : List Bool) : Nat := w.foldl (fun acc b => acc * 2 + b.toNat) acc

def number (w : List Bool) : Nat := numberFrom 0 w

/-- The `n` low bits of `v`, most significant first. -/
def bits : (n v : Nat) → List Bool
  | 0, _ => []
  | n + 1, v => v.testBit n :: bits n v

@[simp] theorem bits_zero (v : Nat) : bits 0 v = [] := rfl

@[simp] theorem bits_succ (n v : Nat) : bits (n + 1) v = v.testBit n :: bits n v := rfl

@[simp] theorem number_nil : number [] = 0 := rfl

theorem number_eq (w : List Bool) : number w = numberFrom 0 w := rfl

@[simp] theorem length_bits (n v : Nat) : (bits n v).length = n := by
  induction n with
  | zero => rfl
  | succ n ih => simp [ih]

theorem getElem?_bits {n i : Nat} (v : Nat) (h : i < n) :
    (bits n v)[i]? = some (v.testBit (n - 1 - i)) := by
  induction n generalizing i with
  | zero => omega
  | succ n ih =>
    cases i with
    | zero => simp
    | succ i =>
      rw [bits_succ, List.getElem?_cons_succ, ih (by omega)]
      congr 2
      omega

@[simp] theorem numberFrom_nil (acc : Nat) : numberFrom acc [] = acc := rfl

@[simp] theorem numberFrom_cons (acc : Nat) (b : Bool) (w : List Bool) :
    numberFrom acc (b :: w) = numberFrom (acc * 2 + b.toNat) w := rfl

theorem numberFrom_eq (acc : Nat) (w : List Bool) :
    numberFrom acc w = acc * 2 ^ w.length + number w := by
  induction w generalizing acc with
  | nil => simp
  | cons b w ih =>
    rw [number_eq, numberFrom_cons, numberFrom_cons, ih, ih (0 * 2 + b.toNat), List.length_cons,
      Nat.pow_succ]
    ring

theorem number_append (w r : List Bool) : number (w ++ r) = number w * 2 ^ r.length + number r := by
  rw [number_eq, numberFrom, List.foldl_append]
  exact numberFrom_eq _ r

theorem number_lt (w : List Bool) : number w < 2 ^ w.length := by
  induction w with
  | nil => simp
  | cons b w ih =>
    have hb : b.toNat ≤ 1 := Bool.toNat_le b
    have hmul : b.toNat * 2 ^ w.length ≤ 1 * 2 ^ w.length := Nat.mul_le_mul_right _ hb
    rw [number_eq, numberFrom_cons, numberFrom_eq, List.length_cons, Nat.pow_succ, Nat.zero_mul,
      Nat.zero_add]
    omega

theorem number_bits (n v : Nat) : number (bits n v) = v % 2 ^ n := by
  induction n with
  | zero => simp [Nat.mod_one]
  | succ n ih =>
    rw [bits_succ, number_eq, numberFrom_cons, numberFrom_eq, ih, length_bits, Nat.zero_mul, Nat.zero_add,
      Nat.toNat_testBit, Nat.pow_succ, Nat.mod_mul]
    ring

/-- Words of one length are told apart by their numbers. -/
theorem number_injective {w r : List Bool} (hlen : w.length = r.length)
    (h : number w = number r) : w = r := by
  induction w generalizing r with
  | nil => exact (List.length_eq_zero_iff.1 hlen.symm).symm
  | cons b w ih =>
    cases r with
    | nil => cases hlen
    | cons b' r =>
      have hlen' : w.length = r.length := by simpa using hlen
      have hw := number_lt w
      have hr := number_lt r
      rw [number_eq, number_eq, numberFrom_cons, numberFrom_cons, numberFrom_eq, numberFrom_eq, hlen'] at h
      rw [hlen'] at hw
      cases b <;> cases b' <;> simp at h
      · rw [ih hlen' h]
      · omega
      · omega
      · rw [ih hlen' h]

theorem bits_number (w : List Bool) : bits w.length (number w) = w := by
  apply number_injective (length_bits _ _)
  rw [number_bits, Nat.mod_eq_of_lt (number_lt w)]

theorem number_ones (n : Nat) : number (List.replicate n true) + 1 = 2 ^ n := by
  induction n with
  | zero => rfl
  | succ n ih =>
    rw [List.replicate_succ, number_eq, numberFrom_cons, numberFrom_eq, List.length_replicate,
      Nat.zero_mul, Nat.zero_add, Bool.toNat_true, Nat.one_mul, Nat.add_assoc, ih, Nat.pow_succ]
    omega

/-- The numbers of `top` bits that begin with the word of value `a.1` and width `a.2`. -/
def range (top : Nat) (a : Nat × Nat) : Nat × Nat :=
  (a.1 * 2 ^ (top - a.2), (a.1 + 1) * 2 ^ (top - a.2))

/-- Half-open ranges that do not meet. -/
def apart (a b : Nat × Nat) : Bool := Nat.ble a.2 b.1 || Nat.ble b.2 a.1

def allApart : List (Nat × Nat) → Bool
  | [] => true
  | a :: l => l.all (apart a) && allApart l

theorem pairwise_of_allApart {l : List (Nat × Nat)} (h : allApart l = true) :
    l.Pairwise fun a b => a.2 ≤ b.1 ∨ b.2 ≤ a.1 := by
  induction l with
  | nil => exact List.Pairwise.nil
  | cons a l ih =>
    rw [allApart, Bool.and_eq_true, List.all_eq_true] at h
    refine List.pairwise_cons.2 ⟨?_, ih h.2⟩
    intro b hb
    have hab := h.1 b hb
    rw [apart, Bool.or_eq_true] at hab
    exact hab.imp Nat.le_of_ble_eq_true Nat.le_of_ble_eq_true

/-- A word begins only with words whose range holds its own. -/
theorem range_of_prefix {top : Nat} {a b : Nat × Nat} (hb : b.2 ≤ top) (ha1 : a.1 < 2 ^ a.2)
    (hb1 : b.1 < 2 ^ b.2) (h : bits a.2 a.1 <+: bits b.2 b.1) :
    (range top a).1 < (range top b).2 ∧ (range top b).1 < (range top a).2 := by
  obtain ⟨r, hr⟩ := h
  have hlen : a.2 + r.length = b.2 := by
    have hl := congrArg List.length hr
    rwa [List.length_append, length_bits, length_bits] at hl
  have hnum := congrArg number hr
  rw [number_append, number_bits, number_bits, Nat.mod_eq_of_lt ha1, Nat.mod_eq_of_lt hb1] at hnum
  have hlt := number_lt r
  have hsplit : 2 ^ (top - a.2) = 2 ^ r.length * 2 ^ (top - b.2) := by
    rw [← Nat.pow_add]
    congr 1
    omega
  have hpos : 0 < 2 ^ (top - b.2) := Nat.pow_pos (by decide)
  unfold range
  rw [hsplit, ← Nat.mul_assoc, ← Nat.mul_assoc, ← hnum]
  constructor
  · exact Nat.mul_lt_mul_of_pos_right (by omega) hpos
  · apply Nat.mul_lt_mul_of_pos_right _ hpos
    rw [Nat.add_mul]
    omega

/-- Words whose ranges do not meet are no prefixes of each other. -/
theorem eq_of_isStart {top : Nat} {table : List (Nat × Nat)}
    (hfit : ∀ a ∈ table, a.2 ≤ top ∧ a.1 < 2 ^ a.2)
    (hapart : allApart (table.map (range top)) = true) {i j : Nat} (hi : i < table.length)
    (hj : j < table.length) (h : bits table[i].2 table[i].1 <+: bits table[j].2 table[j].1) :
    i = j := by
  obtain ⟨h1, h2⟩ := range_of_prefix (hfit _ (List.getElem_mem hj)).1
    (hfit _ (List.getElem_mem hi)).2 (hfit _ (List.getElem_mem hj)).2 h
  have hpair := List.pairwise_map.1 (pairwise_of_allApart hapart)
  rw [List.pairwise_iff_getElem] at hpair
  rcases Nat.lt_trichotomy i j with hlt | heq | hgt
  · have hmeet := hpair i j hi hj hlt
    omega
  · exact heq
  · have hmeet := hpair j i hj hi hgt
    omega

end PrefixCode

/-!
## Numbers in septets

A number is written in base 128, the most significant digit first, each digit but the last with 128
added.  Written without a leading zero digit, a row of numbers has one spelling.

    Minimal c false → (read c 0).flatMap code = c                                (code_read)
    Minimal c false → Minimal c' false → (read c 0 = read c' 0 ↔ c = c')        (read_inj)
-/

namespace Septets

/-- The digits of `n`, each marked as having one after it. -/
def high (n : Nat) : List Nat := if n < 128 then [n + 128] else high (n / 128) ++ [n % 128 + 128]

/-- The digits of `n`, the last one unmarked. -/
def code (n : Nat) : List Nat := if n < 128 then [n] else high (n / 128) ++ [n % 128]

/-- The numbers that `c` spells, `acc` the digits read of the first. -/
def read : List Nat → Nat → List Nat
  | [], _ => []
  | x :: c, acc => if x < 128 then (acc * 128 + x) :: read c 0 else read c (acc * 128 + (x - 128))

/-- No number starts with a zero digit, and the last one ends; `inside` when one has begun. -/
def Minimal : List Nat → Bool → Prop
  | [], inside => inside = false
  | x :: c, inside => (inside = false → x ≠ 128) ∧ x < 256 ∧ Minimal c (decide (128 ≤ x))

/-- One digit more. -/
theorem high_push {acc x : Nat} (hacc : 0 < acc) (hx : x < 128) :
    high (acc * 128 + x) = high acc ++ [x + 128] := by
  have hdiv : (acc * 128 + x) / 128 = acc := by omega
  have hmod : (acc * 128 + x) % 128 = x := by omega
  rw [high, if_neg (by omega), hdiv, hmod]

theorem code_push {acc x : Nat} (hacc : 0 < acc) (hx : x < 128) :
    code (acc * 128 + x) = high acc ++ [x] := by
  have hdiv : (acc * 128 + x) / 128 = acc := by omega
  have hmod : (acc * 128 + x) % 128 = x := by omega
  rw [code, if_neg (by omega), hdiv, hmod]

/-- Behind the digits of a number that has begun, and at the start of one. -/
theorem code_read_from {c : List Nat} :
    (∀ acc, 0 < acc → Minimal c true → (read c acc).flatMap code = high acc ++ c) ∧
      (Minimal c false → (read c 0).flatMap code = c) := by
  induction c with
  | nil => exact ⟨fun _ _ h => absurd h (by simp [Minimal]), fun _ => rfl⟩
  | cons x c ih =>
    constructor
    · rintro acc hacc ⟨-, hx, hc⟩
      rw [read]
      by_cases hlast : x < 128
      · rw [decide_eq_false (by omega)] at hc
        rw [if_pos hlast, List.flatMap_cons, code_push hacc hlast, ih.2 hc, List.append_assoc]
        rfl
      · rw [decide_eq_true (by omega)] at hc
        have hpush : high (acc * 128 + (x - 128)) = high acc ++ [x] := by
          rw [high_push hacc (by omega), Nat.sub_add_cancel (by omega)]
        rw [if_neg hlast, ih.1 _ (by omega) hc, hpush, List.append_assoc]
        rfl
    · rintro ⟨hne, hx, hc⟩
      have hlead := hne rfl
      rw [read, Nat.zero_mul, Nat.zero_add, Nat.zero_add]
      by_cases hlast : x < 128
      · rw [decide_eq_false (by omega)] at hc
        rw [if_pos hlast, List.flatMap_cons, code, if_pos hlast, ih.2 hc]
        rfl
      · rw [decide_eq_true (by omega)] at hc
        have hone : high (x - 128) = [x] := by
          rw [high, if_pos (by omega), Nat.sub_add_cancel (by omega)]
        rw [if_neg hlast, ih.1 _ (by omega) hc, hone]
        rfl

theorem code_read {c : List Nat} (h : Minimal c false) : (read c 0).flatMap code = c :=
  code_read_from.2 h

theorem read_inj {c c' : List Nat} (h : Minimal c false) (h' : Minimal c' false) :
    read c 0 = read c' 0 ↔ c = c' := by
  constructor
  · intro heq
    rw [← code_read h, heq, code_read h']
  · intro heq
    rw [heq]

end Septets
