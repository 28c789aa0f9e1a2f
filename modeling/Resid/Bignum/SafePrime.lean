import Mathlib.Tactic.NormNum.Prime
import Resid.Bignum.Inverse
import Resid.Lib.StrongPrime

/-!
# Safe primes

`bn_safe_prime` walks upward in steps of two from an odd start `q0` whose top two bits are
set, screens `q` and `2 q + 1` by the small odd primes and tests both by Miller-Rabin.  The
walk does not stop at the next power of two.

    bnSmallPrimes lists the odd primes up to the limit              (mem_bnSmallPrimes)
    bnMillerRabin runs the strong test of every base                (bnMillerRabin_limbs)
    bnSieveOk rejects exactly the multiples                         (bnSieveOk_eq)
    bnSafeSearch answers at the first accepted candidate            (bnSafeSearch_first)
    the bit length is kept exactly when no candidate past the power of two comes first
                                                                    (safe_prime_contract)
-/

namespace Bignum

open FixedWidth Positional Loops StrongPrime

/-! ## Algorithm -/

def bnTrailingZeros (x : List Nat) (i : Nat) : Option Nat := do
  if (← bnBit x i) = 1 then some i
  else
    match h : bnBitLen x with
    | none => none
    | some n => if i > n then some i else bnTrailingZeros x (i + 1)
termination_by (bnBitLen x).getD 0 + 1 - i
decreasing_by
  rw [h, Option.getD_some]
  omega

def bnMrSquare (n nm1 : List Nat) : Nat → List Nat → Option Bool
  | 0, _ => some false
  | left + 1, x => do
    let y ← bnModmul x x n
    if (← bnCmp y nm1) = 0 then some true
    else if (← bnCmp y [1]) = 0 then some false
    else bnMrSquare n nm1 left y

def bnMrWitness (n nm1 d : List Nat) (s : Nat) (a : List Nat) : Option Bool := do
  let x ← bnModexp a d n
  if (← bnCmp x [1]) = 0 ∨ (← bnCmp x nm1) = 0 then some true else bnMrSquare n nm1 (s - 1) x

def bnMrEach (n nm1 d : List Nat) (s : Nat) : List (List Nat) → Option Bool
  | [] => some true
  | w :: ws => do if ← bnMrWitness n nm1 d s w then bnMrEach n nm1 d s ws else some false

def bnMillerRabin (n : List Nat) (witnesses : List (List Nat)) : Option Bool := do
  let nm1 ← bnSub n [1]
  let s ← bnTrailingZeros nm1 0
  let d ← bnShr nm1 s
  bnMrEach n nm1 d s witnesses

def bnSpIsPrime (n d : Nat) : Bool :=
  if d * d > n then true else if n % d = 0 then false else bnSpIsPrime n (d + 2)
termination_by n + 1 - d
decreasing_by
  have := Nat.le_mul_self d
  omega

def bnSpFrom (limit n : Nat) (acc : List Nat) : List Nat :=
  if n > limit then acc
  else bnSpFrom limit (n + 2) (if bnSpIsPrime n 3 then acc ++ [n] else acc)
termination_by limit + 1 - n

/-- The odd primes from 3 up to `limit`. -/
def bnSmallPrimes (limit : Nat) : List Nat := bnSpFrom limit 3 []

def bnSafeWindow : Nat := 2048

def bnTakeInt (x : List Int) (n i : Nat) (acc : List Int) : Option (List Int) :=
  pushFrom (fun i => x[i]?) n i acc

def bnResidues (q0 primes : List Nat) (i : Nat) (acc : List Nat) : Option (List Nat) :=
  pushFrom (fun i => do
    let s ← primes[i]?
    let r ← bnMod q0 [s]
    if r.length = 0 then some 0 else r[0]?) primes.length i acc

/-- Whether `q0 + 2 i` and `2 (q0 + 2 i) + 1` are both free of the small primes. -/
def bnSieveOk (primes res : List Nat) (i k : Nat) : Option Bool :=
  if k ≥ primes.length then some true
  else do
    let s ← primes[k]?
    let r ← res[k]?
    let rq := (r + 2 * i) % s
    let rp := (2 * rq + 1) % s
    if rq = 0 ∨ rp = 0 then some false else bnSieveOk primes res i (k + 1)
termination_by primes.length - k

/-- The first twelve primes. -/
def bnMrBases : List (List Nat) :=
  [[2], [3], [5], [7], [11], [13], [17], [19], [23], [29], [31], [37]]

/-- Candidate `i` behind the screen: `2 q + 1` where both numbers pass, base 2 first. -/
def bnSafeCandidate (q0 : List Nat) (i : Nat) : Option (Option (List Nat)) := do
  let q ← bnAdd q0 [2 * i]
  let p ← bnAdd (← bnShl q 1) [1]
  if ← bnMillerRabin q [[2]] then do
    if ← bnMillerRabin p [[2]] then do
      if ← bnMillerRabin q bnMrBases then do
        if ← bnMillerRabin p bnMrBases then some (some p) else some none
      else some none
    else some none
  else some none

def bnSafeSearch (q0 primes res : List Nat) (i : Nat) : Option (Option (List Nat)) :=
  if i ≥ bnSafeWindow then some none
  else do
    let hit ← (do if ← bnSieveOk primes res i 0 then bnSafeCandidate q0 i else some none)
    match hit with
    | some p => some (some p)
    | none => bnSafeSearch q0 primes res (i + 1)
termination_by bnSafeWindow - i

/-- The start: the low `bits - 1` bits of what is read, with the top two and bit 0 set. -/
def bnSafeStart (rnd : List Int) (bits : Nat) : Option (List Nat) := do
  let nb := (bits - 1 + 7) / 8
  let x ← bnFromBe (← bnTakeInt rnd nb 0 [])
  let low ← bnSub (← bnShl [1] (bits - 1)) [1]
  let masked ← bnAnd x low
  bnOr (← bnOr masked (← bnShl [3] (bits - 3))) [1]

/-- For `bits` of at least 16.  The inner `none` is the source's `None`. -/
def bnSafePrime (rnd : List Int) (bits : Nat) : Option (Option (List Nat)) := do
  let q0 ← bnSafeStart rnd bits
  let primes := bnSmallPrimes 2000
  let res ← bnResidues q0 primes 0 []
  bnSafeSearch q0 primes res 0

/-! ## Miller-Rabin -/

theorem bnTrailingZeros_run {x : Nat} (hx : x ≠ 0) : ∀ i, 2 ^ i ∣ x →
    ∃ s, bnTrailingZeros (limbs x) i = some s ∧ 2 ^ s ∣ x ∧ x / 2 ^ s % 2 = 1 := by
  intro i hi
  induction hk : Nat.size x - i generalizing i with
  | zero =>
    have hlt := Nat.lt_size.2 (Nat.le_of_dvd (by omega) hi)
    omega
  | succ k ih =>
    rw [bnTrailingZeros, bnBit_limbs, Option.bind_eq_bind, Option.bind_some]
    by_cases hbit : x / 2 ^ i % 2 = 1
    · exact ⟨i, if_pos hbit, hi, hbit⟩
    · have hnext : 2 ^ (i + 1) ∣ x := by
        obtain ⟨w, rfl⟩ := hi
        rw [Nat.mul_div_cancel_left w (Nat.two_pow_pos i)] at hbit
        exact Nat.mul_dvd_mul_left _ (by omega)
      rw [if_neg hbit]
      split
      · rename_i h
        rw [bnBitLen_limbs] at h
        exact absurd h (by simp)
      · rename_i n h
        rw [bnBitLen_limbs, Option.some_inj] at h
        rw [if_neg (by omega)]
        exact ih (i + 1) hnext (by omega)

section Test

variable {n : Nat} (hn : 3 ≤ n) (hshort : (limbs n).length < 2 ^ 63)

include hn hshort

theorem bnMrSquare_limbs : ∀ left x, x < n →
    bnMrSquare (limbs n) (limbs (n - 1)) left (limbs x) = some (squares n left x) := by
  intro left
  induction left with
  | zero =>
    intro x _
    rfl
  | succ left ih =>
    intro x hx
    have hlen := length_lt_of_le (Nat.le_of_lt hx) hshort
    have hy : x * x % n < n := Nat.mod_lt _ (by omega)
    rw [bnMrSquare, bnModmul_limbs (by omega) hlen, Option.bind_eq_bind, Option.bind_some,
      ← limbs_one, bnCmp_limbs, bnCmp_limbs, squares]
    simp only [Option.bind_eq_bind, Option.bind_some, order_eq_zero, ih _ hy]
    split
    · rfl
    · split <;> rfl

theorem bnMrWitness_limbs (d s a : Nat) :
    bnMrWitness (limbs n) (limbs (n - 1)) (limbs d) s (limbs a) = some (strong n d s a) := by
  have hx : a ^ d % n < n := Nat.mod_lt _ (by omega)
  rw [bnMrWitness, bnModexp_limbs (by omega) hshort, Option.bind_eq_bind, Option.bind_some,
    ← limbs_one, bnCmp_limbs, bnCmp_limbs, strong]
  simp only [Option.bind_eq_bind, Option.bind_some, order_eq_zero,
    bnMrSquare_limbs hn hshort _ _ hx]
  split <;> rfl

theorem bnMrEach_limbs (d s : Nat) : ∀ ws : List Nat,
    bnMrEach (limbs n) (limbs (n - 1)) (limbs d) s (ws.map limbs) =
      some (ws.all (strong n d s)) := by
  intro ws
  induction ws with
  | nil => rfl
  | cons w ws ih =>
    rw [List.map_cons, bnMrEach, bnMrWitness_limbs hn hshort, Option.bind_eq_bind,
      Option.bind_some, ih, List.all_cons]
    cases strong n d s w <;> rfl

/-- The test splits `n - 1` and runs the strong test of every base. -/
theorem bnMillerRabin_limbs : ∃ s d, n - 1 = 2 ^ s * d ∧ (n % 2 = 1 → 0 < s) ∧
    ∀ ws : List Nat,
      bnMillerRabin (limbs n) (ws.map limbs) = some (ws.all (strong n d s)) := by
  obtain ⟨s, hs, hdvd, hodd⟩ :=
    bnTrailingZeros_run (x := n - 1) (by omega) 0 (by rw [pow_zero]; exact one_dvd _)
  refine ⟨s, (n - 1) / 2 ^ s, (Nat.mul_div_cancel' hdvd).symm, fun h => ?_, fun ws => ?_⟩
  · refine Nat.pos_of_ne_zero fun h0 => ?_
    rw [h0, pow_zero, Nat.div_one] at hodd
    omega
  · rw [bnMillerRabin, ← limbs_one, bnSub_limbs (by omega), Option.bind_eq_bind,
      Option.bind_some, hs, Option.bind_eq_bind, Option.bind_some, bnShr_limbs, Option.bind_some,
      bnMrEach_limbs hn hshort]

end Test

theorem bnMrBases_eq : bnMrBases = [2, 3, 5, 7, 11, 13, 17, 19, 23, 29, 31, 37].map limbs := by
  have h : ∀ a, a ≠ 0 → a < 64 → limbs a = [a] := fun a h0 h1 =>
    limbs_of_lt h0 (lt_trans h1 (by norm_num [bnBase]))
  simp [bnMrBases, h]

theorem base_two_eq : [[2]] = [2].map limbs := by rw [List.map_singleton, limbs_two]

/-- Every prime above the bases passes all twelve. -/
theorem bnMillerRabin_prime {n : Nat} (hshort : (limbs n).length < 2 ^ 63) (hp : n.Prime)
    (h37 : 37 < n) : bnMillerRabin (limbs n) bnMrBases = some true := by
  have : Fact n.Prime := ⟨hp⟩
  obtain ⟨s, d, hd, hs, hall⟩ := bnMillerRabin_limbs (n := n) (by omega) hshort
  rw [bnMrBases_eq, hall, Option.some_inj, List.all_eq_true]
  intro a ha
  have hlt : 0 < a ∧ a ≤ 37 := by
    simp only [List.mem_cons, List.not_mem_nil, or_false] at ha
    omega
  refine strong_of_prime (fun hdvd => ?_) (hs (hp.eq_two_or_odd.resolve_left (by omega))) hd
  have := Nat.le_of_dvd hlt.1 hdvd
  omega

/-! ## The small primes -/

/-- Trial division by the odd numbers, none below the next having divided. -/
theorem bnSpIsPrime_run {n : Nat} (hn : 2 ≤ n) (hodd : n % 2 = 1) : ∀ d, 3 ≤ d → d % 2 = 1 →
    (∀ m, 2 ≤ m → m < d → ¬ m ∣ n) → (bnSpIsPrime n d = true ↔ n.Prime) := by
  intro d
  induction hk : n + 1 - d using Nat.strongRecOn generalizing d with
  | _ k ih =>
    intro h3 hdodd hless
    have hself := Nat.le_mul_self d
    rw [bnSpIsPrime]
    by_cases hsq : d * d > n
    · rw [if_pos hsq, Nat.prime_def_le_sqrt]
      refine ⟨fun _ => ⟨hn, fun m hm hle => hless m hm ?_⟩, fun _ => rfl⟩
      have := Nat.le_sqrt.1 hle
      by_contra hlt
      have := Nat.mul_le_mul (Nat.le_of_not_lt hlt) (Nat.le_of_not_lt hlt)
      omega
    rw [if_neg hsq]
    by_cases hdvd : n % d = 0
    · rw [if_pos hdvd]
      refine ⟨fun h => absurd h (by decide), fun hp => ?_⟩
      rcases hp.eq_one_or_self_of_dvd d (Nat.dvd_of_mod_eq_zero hdvd) with h | h
      · omega
      · have : 3 * d ≤ d * d := Nat.mul_le_mul_right d h3
        omega
    rw [if_neg hdvd]
    refine ih (n + 1 - (d + 2)) (by omega) (d + 2) rfl (by omega) (by omega)
      fun m hm hlt hmn => ?_
    by_cases hmd : m < d
    · exact hless m hm hmd hmn
    · rcases (by omega : m = d ∨ m = d + 1) with rfl | rfl
      · exact hdvd (Nat.mod_eq_zero_of_dvd hmn)
      · -- the even number between divides no odd one
        have htwo : 2 ∣ n := dvd_trans (by omega) hmn
        omega

theorem bnSpIsPrime_iff {n : Nat} (hn : 3 ≤ n) (hodd : n % 2 = 1) :
    bnSpIsPrime n 3 = true ↔ n.Prime := by
  refine bnSpIsPrime_run (by omega) hodd 3 (Nat.le_refl 3) rfl fun m hm hlt hdvd => ?_
  obtain rfl : m = 2 := by omega
  omega

theorem mem_bnSpFrom {limit s : Nat} : ∀ n acc, 3 ≤ n → n % 2 = 1 →
    (s ∈ bnSpFrom limit n acc ↔ s ∈ acc ∨ n ≤ s ∧ s ≤ limit ∧ s.Prime) := by
  intro n acc hn hodd
  induction hk : limit + 1 - n using Nat.strongRecOn generalizing n acc with
  | _ k ih =>
    rw [bnSpFrom]
    by_cases hlim : n > limit
    · rw [if_pos hlim]
      exact ⟨Or.inl, fun h => h.resolve_right fun h => by omega⟩
    rw [if_neg hlim, ih (limit + 1 - (n + 2)) (by omega) (n + 2) _ (by omega) (by omega) rfl]
    have hskip : ∀ {p}, p.Prime → n ≤ p → p = n ∨ n + 2 ≤ p := by
      intro p hp hle
      have := hp.eq_two_or_odd.resolve_left (by omega)
      omega
    have hmem : s ∈ (if bnSpIsPrime n 3 = true then acc ++ [n] else acc) ↔
        s ∈ acc ∨ s = n ∧ n.Prime := by
      split
      · rename_i h
        rw [bnSpIsPrime_iff hn hodd] at h
        simp [h]
      · rename_i h
        rw [bnSpIsPrime_iff hn hodd] at h
        simp [h]
    rw [hmem, or_assoc]
    refine or_congr_right ⟨?_, fun ⟨hle, hs, hp⟩ => ?_⟩
    · rintro (⟨rfl, hp⟩ | ⟨hle, hs, hp⟩)
      · exact ⟨Nat.le_refl s, by omega, hp⟩
      · exact ⟨by omega, hs, hp⟩
    · rcases hskip hp hle with rfl | h
      · exact Or.inl ⟨rfl, hp⟩
      · exact Or.inr ⟨h, hs, hp⟩

theorem mem_bnSmallPrimes {limit s : Nat} :
    s ∈ bnSmallPrimes limit ↔ 3 ≤ s ∧ s ≤ limit ∧ s.Prime := by
  rw [bnSmallPrimes, mem_bnSpFrom 3 [] (Nat.le_refl 3) rfl]
  simp

/-! ## The screen -/

/-- Neither `q` nor `2 q + 1` is a multiple of `s`. -/
def clear (q s : Nat) : Bool := decide (¬ (q % s = 0 ∨ (2 * q + 1) % s = 0))

theorem clear_of_primes {q s : Nat} (hs : 2 ≤ s) (hlt : s < q) (hq : q.Prime)
    (hp : (2 * q + 1).Prime) : clear q s = true := by
  have hnot : ∀ {p}, p.Prime → s < p → p % s ≠ 0 := by
    intro p hp hlt h0
    rcases hp.eq_one_or_self_of_dvd s (Nat.dvd_of_mod_eq_zero h0) with h | h
    · omega
    · omega
  rw [clear, decide_eq_true_eq]
  rintro (h | h)
  · exact hnot hq hlt h
  · exact hnot hp (by omega) h

theorem bnResidues_eq {x : Nat} {primes : List Nat} (h : ∀ s ∈ primes, 0 < s ∧ s < bnBase) :
    bnResidues (limbs x) primes 0 [] = some (primes.map (x % ·)) := by
  have htable : table (fun i => x % primes.getD i 0) primes.length = primes.map (x % ·) := by
    apply List.ext_getElem
    · rw [length_table, List.length_map]
    · intro i h1 h2
      rw [length_table] at h1
      simp [table, h1]
  rw [← htable]
  refine pushFrom_all fun i hi => ?_
  obtain ⟨hpos, hlt⟩ := h _ (List.getElem_mem hi)
  have hmod : x % primes[i] < bnBase := lt_trans (Nat.mod_lt x hpos) hlt
  have hs : primes.getD i 0 = primes[i] := by
    rw [List.getD_eq_getElem?_getD, List.getElem?_eq_getElem hi, Option.getD_some]
  rw [hs, List.getElem?_eq_getElem hi, Option.bind_eq_bind, Option.bind_some,
    ← limbs_of_lt (by omega) hlt, bnMod_limbs hpos, Option.bind_eq_bind, Option.bind_some]
  by_cases h0 : x % primes[i] = 0
  · rw [if_pos (length_limbs_eq_zero.2 h0), h0]
  · rw [if_neg fun h => h0 (length_limbs_eq_zero.1 h), limbs_of_lt h0 hmod]
    rfl

theorem bnSieveOk_run {x i : Nat} {primes : List Nat} : ∀ k,
    bnSieveOk primes (primes.map (x % ·)) i k =
      some ((primes.drop k).all (clear (x + 2 * i))) := by
  intro k
  induction hn : primes.length - k generalizing k with
  | zero =>
    rw [bnSieveOk, if_pos (by omega), List.drop_eq_nil_of_le (by omega)]
    rfl
  | succ n ih =>
    have hk : k < primes.length := by omega
    have hrq : (x % primes[k] + 2 * i) % primes[k] = (x + 2 * i) % primes[k] :=
      Nat.mod_add_mod _ _ _
    have hrp : (2 * ((x + 2 * i) % primes[k]) + 1) % primes[k] =
        (2 * (x + 2 * i) + 1) % primes[k] := by
      rw [Nat.add_mod, Nat.mul_mod, Nat.mod_mod, ← Nat.mul_mod, ← Nat.add_mod]
    rw [bnSieveOk, if_neg (by omega), List.getElem?_map, List.getElem?_eq_getElem hk,
      Option.map_some, List.drop_eq_getElem_cons hk, List.all_cons]
    simp only [Option.bind_eq_bind, Option.bind_some, hrq, hrp, ih (k + 1) (by omega), clear]
    split
    · rename_i h
      simp [h]
    · rename_i h
      simp [h]

/-- Every number of the screen divides neither of the two numbers. -/
theorem bnSieveOk_eq (x i : Nat) (primes : List Nat) :
    bnSieveOk primes (primes.map (x % ·)) i 0 = some (primes.all (clear (x + 2 * i))) := by
  rw [bnSieveOk_run 0, List.drop_zero]

/-! ## The walk -/

/-- Adding a limb that may be zero: the list `[0]` is not normalized. -/
theorem bnAddAt_zero (a : List Nat) (n : Nat) : ∀ i c acc,
    bnAddAt a [0] i n c acc = bnAddAt a [] i n c acc := by
  intro i c acc
  induction hk : n - i generalizing i c acc with
  | zero =>
    have hn : i ≥ n := by omega
    rw [bnAddAt, if_pos hn]
    conv_rhs => rw [bnAddAt, if_pos hn]
  | succ k ih =>
    have hget : bnGet [0] (i : Int) = bnGet [] i := by
      rcases i with _ | i
      · rfl
      · rw [bnGet, if_pos (Or.inr (by simp)), bnGet, if_pos (Or.inr (by simp; omega))]
    rw [bnAddAt, if_neg (by omega), hget]
    conv_rhs => rw [bnAddAt]
    rw [if_neg (by omega)]
    simp [ih _ _ _ (show n - (i + 1) = k by omega)]

theorem bnAdd_limb {x v : Nat} (hx : x ≠ 0) (hv : v < bnBase) :
    bnAdd (limbs x) [v] = some (limbs (x + v)) := by
  by_cases h0 : v = 0
  · have hlen : (limbs x).length ≠ 0 := fun h => hx (length_limbs_eq_zero.1 h)
    have hmax : ∀ b : List Nat, b.length ≤ 1 →
        (if (limbs x).length > b.length then (limbs x).length else b.length) =
          (limbs x).length := by
      intro b hb
      split <;> omega
    have hzero := bnAdd_limbs x 0
    rw [bnAdd, limbs_zero, hmax [] (by simp)] at hzero
    rw [h0, bnAdd, hmax [0] (by simp), bnAddAt_zero]
    exact hzero
  · rw [← limbs_of_lt h0 hv, bnAdd_limbs]

/-- The candidate passes the screen, and it and `2 q + 1` pass Miller-Rabin. -/
def Accepted (q : Nat) : Prop :=
  (bnSmallPrimes 2000).all (clear q) = true ∧ bnMillerRabin (limbs q) bnMrBases = some true ∧
    bnMillerRabin (limbs (2 * q + 1)) bnMrBases = some true

/-- From candidate `i` on, `r` is the first accepted one, or nothing where there is none. -/
def FirstAccepted (x i : Nat) (r : Option (List Nat)) : Prop :=
  (∃ j, i ≤ j ∧ j < bnSafeWindow ∧ Accepted (x + 2 * j) ∧
      (∀ l, i ≤ l → l < j → ¬ Accepted (x + 2 * l)) ∧ r = some (limbs (2 * (x + 2 * j) + 1))) ∨
    (∀ l, i ≤ l → l < bnSafeWindow → ¬ Accepted (x + 2 * l)) ∧ r = none

theorem FirstAccepted.skip {x i : Nat} {r : Option (List Nat)} (h : FirstAccepted x (i + 1) r)
    (hnot : ¬ Accepted (x + 2 * i)) : FirstAccepted x i r := by
  have hcons : ∀ k, (∀ l, i + 1 ≤ l → l < k → ¬ Accepted (x + 2 * l)) →
      ∀ l, i ≤ l → l < k → ¬ Accepted (x + 2 * l) := by
    intro k h l h1 h2
    rcases Nat.eq_or_lt_of_le h1 with rfl | hlt
    · exact hnot
    · exact h l hlt h2
  rcases h with ⟨j, hij, hj, hacc, hfirst, hans⟩ | ⟨hnone, hans⟩
  · exact Or.inl ⟨j, by omega, hj, hacc, hcons j hfirst, hans⟩
  · exact Or.inr ⟨hcons _ hnone, hans⟩

section Walk

variable {x : Nat} (hx : 3 ≤ x) (hshort : (limbs (2 * (x + 4096) + 1)).length < 2 ^ 63)

include hx hshort

/-- Behind the screen both numbers decide, and base 2 is one of the twelve. -/
theorem bnSafeCandidate_eq {i : Nat} (hi : i < bnSafeWindow) :
    ∃ b c, bnMillerRabin (limbs (x + 2 * i)) bnMrBases = some b ∧
      bnMillerRabin (limbs (2 * (x + 2 * i) + 1)) bnMrBases = some c ∧
      bnSafeCandidate (limbs x) i =
        some (if b ∧ c then some (limbs (2 * (x + 2 * i) + 1)) else none) := by
  have hi' : i < 2048 := hi
  have h2i : 2 * i < bnBase := lt_trans (show 2 * i < 4096 by omega) (by norm_num [bnBase])
  obtain ⟨s, d, -, -, hq⟩ := bnMillerRabin_limbs (n := x + 2 * i) (by omega)
    (length_lt_of_le (by omega) hshort)
  obtain ⟨t, e, -, -, hp⟩ := bnMillerRabin_limbs (n := 2 * (x + 2 * i) + 1) (by omega)
    (length_lt_of_le (by omega) hshort)
  have hbases : ∀ f : Nat → Bool,
      [2, 3, 5, 7, 11, 13, 17, 19, 23, 29, 31, 37].all f = true → [2].all f = true :=
    fun f h => List.all_eq_true.2 fun a ha =>
      List.all_eq_true.1 h a (List.mem_singleton.1 ha ▸ List.mem_cons_self)
  have hshl : bnShl (limbs (x + 2 * i)) 1 = some (limbs (2 * (x + 2 * i))) := by
    rw [bnShl_limbs, pow_one, Nat.mul_comm]
  refine ⟨_, _, by rw [bnMrBases_eq, hq], by rw [bnMrBases_eq, hp], ?_⟩
  have hq2 := hbases (strong (x + 2 * i) d s)
  have hp2 := hbases (strong (2 * (x + 2 * i) + 1) e t)
  rw [bnSafeCandidate, bnAdd_limb (by omega) h2i, Option.bind_eq_bind, Option.bind_some, hshl,
    Option.bind_eq_bind, Option.bind_some, ← limbs_one, bnAdd_limbs, Option.bind_some,
    base_two_eq, bnMrBases_eq, hq, hp, hq, hp]
  generalize [2].all (strong (x + 2 * i) d s) = b2 at *
  generalize [2].all (strong (2 * (x + 2 * i) + 1) e t) = c2 at *
  generalize [2, 3, 5, 7, 11, 13, 17, 19, 23, 29, 31, 37].all (strong (x + 2 * i) d s) = b at *
  generalize [2, 3, 5, 7, 11, 13, 17, 19, 23, 29, 31, 37].all
    (strong (2 * (x + 2 * i) + 1) e t) = c at *
  cases b
  · cases b2 <;> cases c2 <;> rfl
  · rw [hq2 rfl]
    cases c
    · cases c2 <;> rfl
    · rw [hp2 rfl]
      rfl

/-- The walk answers at the first accepted candidate of the window. -/
theorem bnSafeSearch_first : ∀ i, ∃ r,
    bnSafeSearch (limbs x) (bnSmallPrimes 2000) ((bnSmallPrimes 2000).map (x % ·)) i = some r ∧
      FirstAccepted x i r := by
  intro i
  induction hn : bnSafeWindow - i generalizing i with
  | zero =>
    rw [bnSafeSearch, if_pos (by omega)]
    exact ⟨none, rfl, Or.inr ⟨fun l h1 h2 => by omega, rfl⟩⟩
  | succ n ih =>
    obtain ⟨b, c, hb, hc, hcand⟩ := bnSafeCandidate_eq hx hshort (i := i) (by omega)
    obtain ⟨r, hr, hfirst⟩ := ih (i + 1) (by omega)
    rw [bnSafeSearch, if_neg (by omega), bnSieveOk_eq]
    simp only [Option.bind_eq_bind, Option.bind_some]
    by_cases hsieve : (bnSmallPrimes 2000).all (clear (x + 2 * i)) = true
    · rw [if_pos hsieve, hcand, Option.bind_some]
      by_cases hboth : b = true ∧ c = true
      · rw [if_pos hboth]
        obtain ⟨rfl, rfl⟩ := hboth
        exact ⟨_, rfl, Or.inl ⟨i, Nat.le_refl i, by omega, ⟨hsieve, hb, hc⟩,
          fun l h1 h2 => by omega, rfl⟩⟩
      · rw [if_neg hboth]
        refine ⟨r, hr, hfirst.skip fun h => hboth ⟨?_, ?_⟩⟩
        · exact Option.some.inj (hb.symm.trans h.2.1)
        · exact Option.some.inj (hc.symm.trans h.2.2)
    · rw [if_neg hsieve, Option.bind_some]
      exact ⟨r, hr, hfirst.skip fun h => hsieve h.1⟩

end Walk

/-! ## The start -/

/-- The number the walk starts from. -/
def safeStart (rnd : List Int) (bits : Nat) : Nat :=
  (beVal (rnd.take ((bits - 1 + 7) / 8)) &&& 2 ^ (bits - 1) - 1) ||| 3 * 2 ^ (bits - 3) ||| 1

variable {bits q : Nat}

theorem bnSafeStart_eq {rnd : List Int} (hlen : (bits - 1 + 7) / 8 ≤ rnd.length) :
    bnSafeStart rnd bits = some (limbs (safeStart rnd bits)) := by
  have hthree : limbs 3 = [3] := limbs_of_lt (by decide) (by norm_num [bnBase])
  have htake : bnTakeInt rnd ((bits - 1 + 7) / 8) 0 [] =
      some (rnd.take ((bits - 1 + 7) / 8)) := pushFrom_take hlen
  rw [bnSafeStart, htake, Option.bind_eq_bind, Option.bind_some, bnFromBe_eq, ← hthree,
    ← limbs_one, bnShl_limbs, bnShl_limbs]
  simp [Option.bind_eq_bind, Option.bind_some, 
    bnSub_limbs (Nat.one_le_two_pow (n := bits - 1)), bnAnd_limbs, bnOr_limbs, safeStart]

theorem safeStart_odd (rnd : List Int) (bits : Nat) : safeStart rnd bits % 2 = 1 := by
  rw [safeStart, Nat.or_mod_two_eq_one]
  exact Or.inr rfl

theorem safeStart_ge (rnd : List Int) (bits : Nat) : 3 * 2 ^ (bits - 3) ≤ safeStart rnd bits :=
  le_trans Nat.right_le_or Nat.left_le_or

theorem safeStart_lt (rnd : List Int) (h : 3 ≤ bits) : safeStart rnd bits < 2 ^ (bits - 1) := by
  have hpow : 2 ^ (bits - 1) = 4 * 2 ^ (bits - 3) := by
    rw [show bits - 1 = bits - 3 + 2 by omega, Nat.pow_add]
    omega
  have hpos := Nat.two_pow_pos (bits - 3)
  refine Nat.or_lt_two_pow (Nat.or_lt_two_pow ?_ (by omega)) (by omega)
  exact lt_of_le_of_lt Nat.and_le_right (by omega)

theorem walk_short {x : Nat} (hbits : 16 ≤ bits) (hmax : bits < 2 ^ 63) (hx : x < 2 ^ (bits - 1)) :
    (limbs (2 * (x + 4096) + 1)).length < 2 ^ 63 := by
  refine length_lt_of_lt_pow (k := bits) ?_ hmax
  have h16 : 2 ^ 16 ≤ 2 ^ bits := Nat.pow_le_pow_right (by decide) hbits
  have htop : 2 ^ (bits + 1) ≤ 2 ^ (64 * bits) := Nat.pow_le_pow_right (by decide) (by omega)
  have hhalf : 2 ^ bits = 2 * 2 ^ (bits - 1) := by
    rw [← Nat.pow_succ', show (bits - 1).succ = bits by omega]
  rw [bnBase_pow]
  omega

theorem bnSafePrime_first (rnd : List Int) (hbits : 16 ≤ bits) (hmax : bits < 2 ^ 63)
    (hlen : (bits + 6) / 8 ≤ rnd.length) :
    ∃ r, bnSafePrime rnd bits = some r ∧ FirstAccepted (safeStart rnd bits) 0 r := by
  have hlt := safeStart_lt rnd (show 3 ≤ bits by omega)
  have hge := safeStart_ge rnd bits
  have hpos := Nat.two_pow_pos (bits - 3)
  have hsmall : ∀ s ∈ bnSmallPrimes 2000, 0 < s ∧ s < bnBase := fun s hs => by
    have := mem_bnSmallPrimes.1 hs
    exact ⟨by omega, lt_of_le_of_lt this.2.1 (by norm_num [bnBase])⟩
  obtain ⟨r, hr, hfirst⟩ := bnSafeSearch_first (x := safeStart rnd bits) (by omega)
    (walk_short hbits hmax hlt) 0
  refine ⟨r, ?_, hfirst⟩
  have hstart : bnSafeStart rnd bits = some _ := bnSafeStart_eq (by omega)
  simp [bnSafePrime, hstart, bnResidues_eq hsmall, hr, Option.bind_eq_bind, Option.bind_some]

/-! ## The contract -/

/-- Exactly `bits` bits, 3 modulo 4, and both numbers pass the twelve bases. -/
def SafePrimeOf (bits : Nat) (p : List Nat) : Prop :=
  bnBitLen p = some bits ∧ val p % 4 = 3 ∧ bnMillerRabin p bnMrBases = some true ∧
    bnMillerRabin (limbs ((val p - 1) / 2)) bnMrBases = some true

theorem size_double_succ (hbits : 3 ≤ bits) (hq : 3 * 2 ^ (bits - 3) ≤ q) :
    Nat.size (2 * q + 1) = bits ↔ q < 2 ^ (bits - 1) := by
  have h2 : 2 ^ (bits - 1) = 4 * 2 ^ (bits - 3) := by
    rw [show bits - 1 = bits - 3 + 2 by omega, Nat.pow_add]
    omega
  have h1 : 2 ^ bits = 2 * 2 ^ (bits - 1) := by
    rw [← Nat.pow_succ', show (bits - 1).succ = bits by omega]
  have hlow : bits - 1 < Nat.size (2 * q + 1) := Nat.lt_size.2 (by omega)
  have hhigh : Nat.size (2 * q + 1) ≤ bits ↔ 2 * q + 1 < 2 ^ bits := Nat.size_le
  constructor
  · intro h
    omega
  · intro h
    omega

/-- An accepted candidate keeps the contract exactly below the power of two. -/
theorem safePrimeOf_iff (hbits : 3 ≤ bits) (hq : 3 * 2 ^ (bits - 3) ≤ q) (hodd : q % 2 = 1)
    (hacc : Accepted q) : SafePrimeOf bits (limbs (2 * q + 1)) ↔ q < 2 ^ (bits - 1) := by
  rw [← size_double_succ hbits hq, SafePrimeOf, bnBitLen_limbs, val_limbs, Option.some_inj]
  have hhalf : (2 * q + 1 - 1) / 2 = q := by omega
  rw [hhalf]
  exact ⟨fun h => h.1, fun h => ⟨h, by omega, hacc.2.2, hacc.2.1⟩⟩

/-- The screen keeps every candidate that is half of a safe prime. -/
theorem bnSieveOk_keeps {rnd : List Int} (hbits : 16 ≤ bits) (hlen : (bits + 6) / 8 ≤ rnd.length)
    {q0 res : List Nat} {i : Nat} (hq0 : bnSafeStart rnd bits = some q0)
    (hres : bnResidues q0 (bnSmallPrimes 2000) 0 [] = some res) (hq : (val q0 + 2 * i).Prime)
    (hp : (2 * (val q0 + 2 * i) + 1).Prime) :
    bnSieveOk (bnSmallPrimes 2000) res i 0 = some true := by
  rw [bnSafeStart_eq (by omega), Option.some_inj] at hq0
  subst hq0
  rw [bnResidues_eq fun s hs => by
    have := mem_bnSmallPrimes.1 hs
    exact ⟨by omega, lt_of_le_of_lt this.2.1 (by norm_num [bnBase])⟩, Option.some_inj] at hres
  subst hres
  rw [val_limbs] at hq hp
  have hge := safeStart_ge rnd bits
  have h13 : 2 ^ 13 ≤ 2 ^ (bits - 3) := Nat.pow_le_pow_right (by decide) (by omega)
  rw [bnSieveOk_eq, Option.some_inj, List.all_eq_true]
  intro s hs
  have := mem_bnSmallPrimes.1 hs
  exact clear_of_primes (by omega) (by omega) hq hp

/-- The search keeps its contract exactly when every accepted candidate of the window past
the power of two has an accepted one below it before it.  The screen and the test keep
theirs always. -/
theorem safe_prime_contract (rnd : List Int) {bits : Nat} (hbits : 16 ≤ bits)
    (hmax : bits < 2 ^ 63) (hlen : (bits + 6) / 8 ≤ rnd.length) :
    ((∃ r, bnSafePrime rnd bits = some r ∧ ∀ p, r = some p → SafePrimeOf bits p) ∧
        (∀ q0 res i, bnSafeStart rnd bits = some q0 →
          bnResidues q0 (bnSmallPrimes 2000) 0 [] = some res → (val q0 + 2 * i).Prime →
          (2 * (val q0 + 2 * i) + 1).Prime →
          bnSieveOk (bnSmallPrimes 2000) res i 0 = some true) ∧
        ∀ n : BnNat, (val n.list).Prime → 37 < val n.list →
          bnMillerRabin n.list bnMrBases = some true) ↔
      ∀ i, i < bnSafeWindow → 2 ^ (bits - 1) ≤ safeStart rnd bits + 2 * i →
        Accepted (safeStart rnd bits + 2 * i) →
        ∃ j, j < i ∧ safeStart rnd bits + 2 * j < 2 ^ (bits - 1) ∧
          Accepted (safeStart rnd bits + 2 * j) := by
  obtain ⟨r, hr, hfirst⟩ := bnSafePrime_first rnd hbits hmax hlen
  have hge := safeStart_ge rnd bits
  have hodd := safeStart_odd rnd bits
  have hkeeps : ∀ j, Accepted (safeStart rnd bits + 2 * j) →
      (SafePrimeOf bits (limbs (2 * (safeStart rnd bits + 2 * j) + 1)) ↔
        safeStart rnd bits + 2 * j < 2 ^ (bits - 1)) :=
    fun j hacc => safePrimeOf_iff (by omega) (by omega) (by omega) hacc
  constructor
  · rintro ⟨⟨r', hr', hall⟩, -, -⟩ i hi hpast hacc
    obtain rfl : r' = r := Option.some.inj (hr'.symm.trans hr)
    rcases hfirst with ⟨j, -, -, hj, hbefore, rfl⟩ | ⟨hnone, -⟩
    · have hlt := (hkeeps j hj).1 (hall _ rfl)
      exact ⟨j, by omega, hlt, hj⟩
    · exact absurd hacc (hnone i (Nat.zero_le i) hi)
  · intro hcond
    refine ⟨⟨r, hr, fun p hp => ?_⟩, fun q0 res i hq0 hres => bnSieveOk_keeps hbits hlen hq0 hres,
      fun n hprime h37 => ?_⟩
    · subst hp
      rcases hfirst with ⟨j, -, hj, hacc, hbefore, hans⟩ | ⟨-, hans⟩
      · obtain rfl := Option.some.inj hans
        refine (hkeeps j hacc).2 ?_
        by_contra hpast
        obtain ⟨k, hkj, -, hk⟩ := hcond j hj (Nat.le_of_not_lt hpast) hacc
        exact hbefore k (Nat.zero_le k) hkj hk
      · exact absurd hans (by simp)
    · have hshort := n.short
      rw [n.eq_limbs] at hshort ⊢
      exact bnMillerRabin_prime hshort hprime h37

theorem not_accepted_of_dvd {s : Nat} (hs : 3 ≤ s ∧ s ≤ 2000 ∧ s.Prime) (hdvd : s ∣ q) :
    ¬ Accepted q := by
  intro h
  have hclear := List.all_eq_true.1 h.1 s (mem_bnSmallPrimes.2 hs)
  rw [clear, decide_eq_true_eq] at hclear
  exact hclear (Or.inl (Nat.mod_eq_zero_of_dvd hdvd))

theorem accepted_of_primes (hshort : (limbs (2 * q + 1)).length < 2 ^ 63) (hlarge : 2000 < q)
    (hq : q.Prime) (hp : (2 * q + 1).Prime) : Accepted q := by
  refine ⟨List.all_eq_true.2 fun s hs => ?_, ?_, ?_⟩
  · have := mem_bnSmallPrimes.1 hs
    exact clear_of_primes (by omega) (by omega) hq hp
  · exact bnMillerRabin_prime (length_lt_of_le (by omega) hshort) hq (by omega)
  · exact bnMillerRabin_prime hshort hp (by omega)

/-- From the last odd number of 15 bits the walk reaches 32771, and 65543 has 17 bits. -/
theorem safe_prime_seventeen :
    bnSafePrime [255, 255] 16 = some (some [65543]) ∧ bnBitLen [65543] = some 17 := by
  have hlimbs : limbs 65543 = [65543] := limbs_of_lt (by decide) (by norm_num [bnBase])
  have hstart : safeStart [255, 255] 16 = 32767 := by decide
  obtain ⟨r, hr, hfirst⟩ := bnSafePrime_first [255, 255] (Nat.le_refl 16)
    (by norm_num) (by decide)
  have h2 : Accepted (32767 + 2 * 2) := accepted_of_primes (by rw [hlimbs]; norm_num) (by decide)
    (by norm_num) (by norm_num)
  have h0 : ¬ Accepted (32767 + 2 * 0) := not_accepted_of_dvd (s := 7) (by norm_num) (by decide)
  have h1 : ¬ Accepted (32767 + 2 * 1) := not_accepted_of_dvd (s := 3) (by norm_num) (by decide)
  rcases hfirst with ⟨j, -, -, hj, hbefore, rfl⟩ | ⟨hnone, -⟩
  · have hle : j ≤ 2 := by
      by_contra hgt
      exact hbefore 2 (Nat.zero_le 2) (by omega) h2
    interval_cases j
    · exact absurd hj h0
    · exact absurd hj h1
    · rw [hr, ← hlimbs, bnBitLen_limbs]
      have hsize : Nat.size 65543 = 17 :=
        Nat.le_antisymm (Nat.size_le.2 (by norm_num)) (Nat.lt_size.2 (by norm_num))
      exact ⟨rfl, congrArg some hsize⟩
  · exact absurd h2 (hnone 2 (Nat.zero_le 2) (by decide))

/-- From two zero bytes the whole window stays below the power of two. -/
theorem safe_prime_contract_zeros :
    ∃ r, bnSafePrime [0, 0] 16 = some r ∧ ∀ p, r = some p → SafePrimeOf 16 p := by
  have hstart : safeStart [0, 0] 16 = 24577 := by decide
  have h := safe_prime_contract [0, 0] (Nat.le_refl 16) (by norm_num) (by decide)
  refine (h.2 fun i hi hpast => ?_).1
  have hi' : i < 2048 := hi
  omega

end Bignum
