import Resid.Zone.Posix
import Resid.Lib.FixedWidth
import Resid.Lib.Scan

/-!
# TZif files

A block holds transitions, the type each selects, the table of types and the names.  A file of
version 1 has one block of 32-bit times; later ones have a second, of 64-bit times, and a rule at
the end for the times past the last transition.

    Produced z → z.footerRule = some p → ∃ s, posixParse s = some p           (Produced.footer)
-/

namespace TimeZone

open Runtime

/-- An entry of the table of types: its offset east of UTC, in seconds. -/
structure ZoneType where
  offset : Int
  isdst : Bool
  abbrevIndex : Int
  deriving DecidableEq

structure ZoneBlock where
  transitions : List Int
  typeIndex : List Int
  types : List ZoneType
  abbrevs : List Int
  timeSize : Int
  deriving DecidableEq

/-- A zone: the 32-bit block, the 64-bit one, and the rule past their transitions. -/
structure Zone where
  name : Str
  first : ZoneBlock
  second : ZoneBlock
  footer : Str
  footerRule : Option PosixTz
  deriving DecidableEq

/-! ## Bytes -/

def tzU8 (b : List UInt8) (i : Int) : Int :=
  if i < 0 ∨ i ≥ b.length then -1 else (b.getD i.toNat 0).toNat

def tzU16 (b : List UInt8) (i : Int) : Int :=
  let a := tzU8 b i
  let c := tzU8 b (i + 1)
  if a < 0 ∨ c < 0 then -1 else a * 256 + c

def tzU32 (b : List UInt8) (i : Int) : Int :=
  let a := tzU16 b i
  let c := tzU16 b (i + 2)
  if a < 0 ∨ c < 0 then -1 else a * 65536 + c

def tzI32 (b : List UInt8) (i : Int) : Int :=
  let v := tzU32 b i
  if v < 0 then -1 else if v ≥ 2147483648 then v - 4294967296 else v

/-- The signed 64-bit value at `i`, or -1 past `2 ^ 47` either side. -/
def tzI64 (b : List UInt8) (i : Int) : Int :=
  let hi := tzU32 b i
  let lo := tzU32 b (i + 4)
  if hi < 0 ∨ lo < 0 then -1
  else
    let neg := hi ≥ 2147483648
    let mhi := if neg then 4294967295 - hi else hi
    let mlo := if neg then 4294967295 - lo else lo
    if mhi > 32768 then -1
    else
      let total := mhi * 4294967296 + mlo
      let mag := if neg then total + 1 else total
      if mag > 140737488355328 then -1 else if neg then 0 - mag else mag

/-! ## The header -/

structure TzCounts where
  isutcnt : Int
  isstdcnt : Int
  leapcnt : Int
  timecnt : Int
  typecnt : Int
  charcnt : Int

def tzCountsAt (b : List UInt8) (i : Int) : TzCounts :=
  ⟨tzU32 b (i + 20), tzU32 b (i + 24), tzU32 b (i + 28), tzU32 b (i + 32), tzU32 b (i + 36),
    tzU32 b (i + 40)⟩

/-- The bytes "TZif". -/
def tzMagic : Int := 1415211366

def tzVersionAt (b : List UInt8) (i : Int) : Int :=
  if tzU32 b i ≠ tzMagic then -1 else tzU8 b (i + 4)

def tzBlockSize (c : TzCounts) (timeSize : Int) : Int :=
  c.timecnt * timeSize + c.timecnt + c.typecnt * 6 + c.charcnt + c.leapcnt * (timeSize + 4) +
    c.isstdcnt + c.isutcnt

def tzCountsOk (c : TzCounts) : Bool :=
  if c.timecnt < 0 ∨ c.typecnt < 0 ∨ c.charcnt < 0 then false
  else if c.leapcnt < 0 ∨ c.isstdcnt < 0 ∨ c.isutcnt < 0 then false
  else decide (c.typecnt ≥ 1)

def tzEmptyBlock (timeSize : Int) : ZoneBlock := ⟨[], [], [], [], timeSize⟩

/-! ## A block -/

def tzTimes (b : List UInt8) (p n timeSize : Int) : List Int :=
  (List.range n.toNat).map fun i : Nat =>
    if timeSize = 4 then tzI32 b (p + i * timeSize) else tzI64 b (p + i * timeSize)

def tzBytes (b : List UInt8) (p n : Int) : List Int :=
  (List.range n.toNat).map fun i : Nat => tzU8 b (p + i)

def tzTypes (b : List UInt8) (p n : Int) : List ZoneType :=
  (List.range n.toNat).map fun i : Nat =>
    let start := p + i * 6
    ⟨tzI32 b start, decide (tzU8 b (start + 4) ≠ 0), tzU8 b (start + 5)⟩

/-- The block whose header starts at `hi`; an empty one when the counts are wrong or it runs past
the end. -/
def tzBlockAt (b : List UInt8) (hi timeSize : Int) : ZoneBlock :=
  let c := tzCountsAt b hi
  if tzCountsOk c = false then tzEmptyBlock timeSize
  else
    let p := hi + 44
    let size := tzBlockSize c timeSize
    if p + size > b.length then tzEmptyBlock timeSize
    else
      let atIndex := p + c.timecnt * timeSize
      let atTypes := atIndex + c.timecnt
      let atAbbr := atTypes + c.typecnt * 6
      ⟨tzTimes b p c.timecnt timeSize, tzBytes b atIndex c.timecnt, tzTypes b atTypes c.typecnt,
        tzBytes b atAbbr c.charcnt, timeSize⟩

/-! ## Abbreviations -/

/-- The characters from `i` up to the next NUL or the end; a negative index aborts. -/
def tzAbbrevRun (chars : List Int) (i : Int) (b : StrBuf) : Option StrBuf :=
  if i ≥ chars.length then some b
  else if i < 0 then none
  else if chars.getD i.toNat 0 = 0 then some b
  else tzAbbrevRun chars (i + 1) (pushChar b (chars.getD i.toNat 0))
termination_by (chars.length - i).toNat

def tzAbbrevAt (chars : List Int) (idx : Int) : Option Str := do
  let b ← tzAbbrevRun chars idx []
  some (finishText b)

/-! ## The whole file -/

/-- The bytes up to a newline, as a text. -/
def tzFooterScan : List UInt8 → StrBuf → Str
  | [], acc => finishText acc
  | c :: b, acc => if c = 10 then finishText acc else tzFooterScan b (pushChar acc c.toNat)

/-- The rule after a block, between newlines; empty when absent. -/
def tzFooterAt (b : List UInt8) (i : Int) : Str :=
  if i ≥ b.length then []
  else if tzU8 b i ≠ 10 then []
  else tzFooterScan (b.drop (i + 1).toNat) []

def zoneMake (name : Str) (first second : ZoneBlock) (footer : Str) : Zone :=
  ⟨name, first, second, footer, posixParse footer⟩

/-- The zone in the bytes of a file, or nothing when they are not one. -/
def zoneParseTzif (b : List UInt8) (name : Str) : Option Zone :=
  let version := tzVersionAt b 0
  if version < 0 then none
  else
    let first := tzBlockAt b 0 4
    if first.types.length = 0 then none
    else if version < 50 then some (zoneMake name first (tzEmptyBlock 8) [])
    else
      let hi := 44 + tzBlockSize (tzCountsAt b 0) 4
      if tzVersionAt b hi < 0 then none
      else
        let second := tzBlockAt b hi 8
        let foot := hi + 44 + tzBlockSize (tzCountsAt b hi) 8
        some (zoneMake name first second (tzFooterAt b foot))

/-! ## Zones that need no file -/

/-- The characters of a name and a terminator. -/
def tzAbbrevChars (s : Str) : List Int := s.map (fun c => (c.toNat : Int)) ++ [0]

def zoneWithRule (z : Zone) (p : PosixTz) : Zone := ⟨z.name, z.first, z.second, z.footer, some p⟩

/-- A zone described only by a parsed rule. -/
def zoneFromPosix (name : Str) (p : PosixTz) : Zone :=
  let st : ZoneType := ⟨p.stdOff, false, 0⟩
  let dt : ZoneType := ⟨p.dstOff, true, strLen p.std + 1⟩
  let b : ZoneBlock := ⟨[], [], [st, dt], tzAbbrevChars p.std ++ tzAbbrevChars p.dst, 4⟩
  zoneWithRule ⟨name, b, tzEmptyBlock 8, [], none⟩ p

/-- The zones that files and rules give. -/
inductive Produced : Zone → Prop
  | tzif {b : List UInt8} {name : Str} {z : Zone} : zoneParseTzif b name = some z → Produced z
  | posix {s name : Str} {p : PosixTz} : posixParse s = some p → Produced (zoneFromPosix name p)

/-- The rule of such a zone is a parsed string. -/
theorem Produced.footer {z : Zone} (h : Produced z) {p : PosixTz} (hp : z.footerRule = some p) :
    ∃ s, posixParse s = some p := by
  cases h with
  | @tzif b name _ h =>
    unfold zoneParseTzif at h
    simp only at h
    split_ifs at h
    · cases h
      exact ⟨[], hp⟩
    · cases h
      exact ⟨tzFooterAt b _, hp⟩
  | @posix s name q h =>
    cases hp
    exact ⟨s, h⟩

/-!
## Transition times

A block encodes its times as big-endian words in two's complement, of four octets in the first
block and of eight in the second.  A reader gives -1 for an eight-octet time past `2 ^ 47`.

    h + 44 + size ≤ b.length → tzI64 b i = t, or -1 past 2 ^ 47                    (tzI64_eq)
    ts ascending → LastNotAfter ts utc (zoneFindTransition ts utc)       (zoneFindTransition_spec)
    zoneParseTzif b name = some z → (times read and looked up rightly ↔ no time is past 2 ^ 47)
                                                                        (zone_transitions_iff)

### Algorithm

The search halves `[lo, hi)`: what lies before `lo` is not after the instant, what lies from `hi`
on is, and `found` is the index before `lo`.
-/

open ByteOrder

/-! ## The search -/

/-- The search in `[lo, hi)`; an index outside the list aborts. -/
def zoneFindSpan (ts : List Int) (lo hi : Nat) (utc found : Int) : Option Int :=
  if lo ≥ hi then some found
  else
    match ts[lo + (hi - lo) / 2]? with
    | none => none
    | some t =>
      if t ≤ utc then zoneFindSpan ts (lo + (hi - lo) / 2 + 1) hi utc (lo + (hi - lo) / 2 : Nat)
      else zoneFindSpan ts lo (lo + (hi - lo) / 2) utc found
termination_by hi - lo

/-- The index of the last time at or before `utc`, or -1. -/
def zoneFindTransition (ts : List Int) (utc : Int) : Option Int :=
  zoneFindSpan ts 0 ts.length utc (-1)

/-- `r` is the last index whose time is not after `utc`, or -1 when all are after. -/
def LastNotAfter (ts : List Int) (utc r : Int) : Prop :=
  (r = -1 ∧ ∀ t ∈ ts, utc < t) ∨
    ∃ k : Nat, r = k ∧ (∃ t, ts[k]? = some t ∧ t ≤ utc) ∧ ∀ j t, k < j → ts[j]? = some t → utc < t

variable {ts : List Int} {h i w : Nat} {b : List UInt8}

theorem ascending_get (h : ts.Pairwise (· < ·)) {j : Nat} {a c : Int} (hij : i < j)
    (hi : ts[i]? = some a) (hj : ts[j]? = some c) : a < c := by
  obtain ⟨hil, rfl⟩ := List.getElem?_eq_some_iff.1 hi
  obtain ⟨hjl, rfl⟩ := List.getElem?_eq_some_iff.1 hj
  exact List.pairwise_iff_getElem.1 h i j hil hjl hij

theorem zoneFindSpan_spec (hasc : ts.Pairwise (· < ·)) {lo hi : Nat} {utc : Int} (hle : lo ≤ hi)
    (hlen : hi ≤ ts.length) (hlow : ∀ i t, i < lo → ts[i]? = some t → t ≤ utc)
    (hhigh : ∀ i t, hi ≤ i → ts[i]? = some t → utc < t) :
    ∃ r, zoneFindSpan ts lo hi utc ((lo : Int) - 1) = some r ∧ LastNotAfter ts utc r := by
  induction hn : hi - lo using Nat.strong_induction_on generalizing lo hi with
  | _ n ih =>
  rw [zoneFindSpan]
  by_cases hstop : lo ≥ hi
  · rw [if_pos hstop]
    refine ⟨_, rfl, ?_⟩
    by_cases h0 : lo = 0
    · left
      refine ⟨by omega, ?_⟩
      intro t ht
      obtain ⟨i, hi', heq⟩ := List.getElem_of_mem ht
      exact hhigh i t (by omega) (List.getElem?_eq_some_iff.2 ⟨hi', heq⟩)
    · right
      have hlast : lo - 1 < ts.length := by omega
      have hget := List.getElem?_eq_getElem hlast
      refine ⟨lo - 1, by omega, ⟨_, hget, hlow _ _ (by omega) hget⟩, ?_⟩
      intro j t hj ht
      exact hhigh j t (by omega) ht
  rw [if_neg hstop]
  obtain ⟨mid, hmid⟩ : ∃ m, lo + (hi - lo) / 2 = m := ⟨_, rfl⟩
  rw [hmid]
  have hlt : mid < ts.length := by omega
  have hget := List.getElem?_eq_getElem hlt
  rw [hget]
  simp only
  by_cases ht : ts[mid] ≤ utc
  · -- all up to the middle one are not after the instant
    rw [if_pos ht]
    have hfound : ((mid : Nat) : Int) = ((mid + 1 : Nat) : Int) - 1 := by omega
    rw [hfound]
    refine ih (hi - (mid + 1)) (by omega) (by omega) hlen ?_ hhigh rfl
    intro i t hi' hit
    by_cases heq : i = mid
    · subst heq
      rw [hget] at hit
      cases hit
      exact ht
    · exact (ascending_get hasc (by omega) hit hget).le.trans ht
  · rw [if_neg ht]
    refine ih (mid - lo) (by omega) (by omega) (by omega) hlow ?_ rfl
    intro i t hi' hit
    by_cases heq : i = mid
    · subst heq
      rw [hget] at hit
      cases hit
      omega
    · have := ascending_get hasc (show mid < i by omega) hget hit
      omega

theorem zoneFindTransition_spec (hasc : ts.Pairwise (· < ·)) (utc : Int) :
    ∃ r, zoneFindTransition ts utc = some r ∧ LastNotAfter ts utc r := by
  refine zoneFindSpan_spec hasc (Nat.zero_le _) le_rfl ?_ ?_
  · intro i t hi
    omega
  · intro i t hi hit
    rw [List.getElem?_eq_none hi] at hit
    cases hit

/-! ## What a file encodes -/

/-- A big-endian word. -/
def bigEndian (bs : List UInt8) : Nat := value bs.reverse

/-- A big-endian word in two's complement. -/
def twosComplement (bs : List UInt8) : Int := Int.bmod (bigEndian bs) (256 ^ bs.length)

/-- The count that stands `k` octets into the header at `h`. -/
def headerCount (b : List UInt8) (h k : Nat) : Nat := bigEndian ((b.drop (h + k)).take 4)

/-- The octets of a block after its header: times and their types, the table of types, the names,
leap seconds and indicators. -/
def bodySize (b : List UInt8) (h w : Nat) : Nat :=
  headerCount b h 32 * w + headerCount b h 32 + headerCount b h 36 * 6 + headerCount b h 40 +
    headerCount b h 28 * (w + 4) + headerCount b h 24 + headerCount b h 20

/-- The times that the block at `h` encodes in words of `w` octets. -/
def encodedTimes (b : List UInt8) (h w : Nat) : List Int :=
  (List.range (headerCount b h 32)).map fun i => twosComplement ((b.drop (h + 44 + i * w)).take w)

/-- The block at `h` has a type and lies inside the file. -/
def Whole (b : List UInt8) (h w : Nat) : Prop :=
  1 ≤ headerCount b h 36 ∧ h + 44 + bodySize b h w ≤ b.length

def firstTimes (b : List UInt8) : List Int := encodedTimes b 0 4

/-- Where the second header stands. -/
def secondHeader (b : List UInt8) : Nat := 44 + bodySize b 0 4

/-- The times of the second block, which a file has from version 2 on. -/
def secondTimes (b : List UInt8) : List Int :=
  if (b.getD 4 0).toNat < 50 then [] else encodedTimes b (secondHeader b) 8

/-- `2 ^ 47` seconds, in either direction. -/
def InReach (t : Int) : Prop := -140737488355328 ≤ t ∧ t ≤ 140737488355328

instance (t : Int) : Decidable (InReach t) := inferInstanceAs (Decidable (_ ∧ _))

/-! ## The readers -/

theorem tzU8_of_drop {r : List UInt8} {x : UInt8} (h : b.drop i = x :: r) : tzU8 b i = x.toNat := by
  have hlt := Scan.lt_of_drop h
  have hget := Scan.getElem?_of_drop h
  unfold tzU8
  rw [if_neg (by omega), Int.toNat_natCast, List.getD_eq_getElem?_getD, hget]
  rfl

theorem tzU8_past {i : Int} (h : (b.length : Int) ≤ i) : tzU8 b i = -1 := by
  unfold tzU8
  rw [if_pos (Or.inr h)]

/-- Four octets at `i`. -/
theorem tzU32_of_drop {r : List UInt8} {x y z w : UInt8} (h : b.drop i = x :: y :: z :: w :: r) :
    tzU32 b i = ((x.toNat * 256 + y.toNat : Nat) : Int) * 65536 + (z.toNat * 256 + w.toNat : Nat) := by
  have h1 := Scan.drop_succ h
  have h2 := Scan.drop_succ h1
  have h3 := Scan.drop_succ h2
  have e0 := tzU8_of_drop h
  have e1 := tzU8_of_drop h1
  have e2 := tzU8_of_drop h2
  have e3 := tzU8_of_drop h3
  have c1 : ((i + 1 : Nat) : Int) = (i : Int) + 1 := by omega
  have c2 : ((i + 1 + 1 : Nat) : Int) = (i : Int) + 2 := by omega
  have c3 : ((i + 1 + 1 + 1 : Nat) : Int) = (i : Int) + 2 + 1 := by omega
  rw [c1] at e1
  rw [c2] at e2
  rw [c3] at e3
  unfold tzU32 tzU16
  simp only
  rw [e0, e1, e2, e3]
  have p1 : ¬((x.toNat : Int) < 0 ∨ (y.toNat : Int) < 0) := by omega
  have p2 : ¬((z.toNat : Int) < 0 ∨ (w.toNat : Int) < 0) := by omega
  rw [if_neg p1, if_neg p2, if_neg (by omega)]
  omega

theorem bigEndian_four (x y z w : UInt8) : bigEndian [x, y, z, w] =
    (x.toNat * 256 + y.toNat) * 65536 + (z.toNat * 256 + w.toNat) := by
  show w.toNat + 256 * (z.toNat + 256 * (y.toNat + 256 * (x.toNat + 256 * 0))) = _
  omega

theorem four_of_le (h : i + 4 ≤ b.length) : ∃ x y z w r, b.drop i = x :: y :: z :: w :: r := by
  have hlen : 4 ≤ (b.drop i).length := by
    rw [List.length_drop]
    omega
  match b.drop i, hlen with
  | x :: y :: z :: w :: r, _ => exact ⟨x, y, z, w, r, rfl⟩

theorem tzU32_eq (h : i + 4 ≤ b.length) : tzU32 b i = bigEndian ((b.drop i).take 4) := by
  obtain ⟨x, y, z, w, r, hd⟩ := four_of_le h
  rw [tzU32_of_drop hd, hd]
  show _ = ((bigEndian [x, y, z, w] : Nat) : Int)
  rw [bigEndian_four]
  omega

/-- A word that is cut off. -/
theorem tzU32_cut (h : b.length < i + 4) : tzU32 b i = -1 := by
  have hlast : tzU8 b ((i : Int) + 2 + 1) = -1 := tzU8_past (by omega)
  unfold tzU32 tzU16
  simp only
  rw [hlast]
  simp

theorem length_take_four (h : i + 4 ≤ b.length) : ((b.drop i).take 4).length = 4 := by
  rw [List.length_take, List.length_drop]
  omega

theorem bigEndian_lt (bs : List UInt8) : bigEndian bs < 256 ^ bs.length := by
  have h := value_lt bs.reverse
  rwa [List.length_reverse] at h

theorem tzI32_eq (h : i + 4 ≤ b.length) : tzI32 b i = twosComplement ((b.drop i).take 4) := by
  have hlt := bigEndian_lt ((b.drop i).take 4)
  unfold tzI32 twosComplement
  simp only
  rw [length_take_four h] at hlt ⊢
  rw [tzU32_eq h]
  generalize bigEndian ((b.drop i).take 4) = v at hlt ⊢
  rw [if_neg (by omega)]
  split_ifs with hneg
  · rw [Int.bmod_def]
    omega
  · rw [Int.bmod_def]
    omega

theorem bigEndian_append (l r : List UInt8) :
    bigEndian (l ++ r) = bigEndian l * 256 ^ r.length + bigEndian r := by
  unfold bigEndian
  rw [List.reverse_append, value_append, List.length_reverse, Nat.add_comm, Nat.mul_comm]

theorem tzI64_eq (h : i + 8 ≤ b.length) :
    tzI64 b i = if InReach (twosComplement ((b.drop i).take 8)) then
      twosComplement ((b.drop i).take 8) else -1 := by
  have hlow : ((i : Int) + 4) = ((i + 4 : Nat) : Int) := by omega
  have hlen8 : ((b.drop i).take 8).length = 8 := by
    rw [List.length_take, List.length_drop]
    omega
  have hsplit : (b.drop i).take 8 = (b.drop i).take 4 ++ (b.drop (i + 4)).take 4 := by
    rw [← List.drop_drop, ← List.take_add]
  have hval := bigEndian_append ((b.drop i).take 4) ((b.drop (i + 4)).take 4)
  rw [← hsplit, length_take_four (show i + 4 + 4 ≤ b.length by omega)] at hval
  have hhi := bigEndian_lt ((b.drop i).take 4)
  have hlo := bigEndian_lt ((b.drop (i + 4)).take 4)
  rw [length_take_four (show i + 4 ≤ b.length by omega)] at hhi
  rw [length_take_four (show i + 4 + 4 ≤ b.length by omega)] at hlo
  unfold tzI64 twosComplement
  simp only
  rw [hlow, tzU32_eq (show i + 4 ≤ b.length by omega),
    tzU32_eq (show i + 4 + 4 ≤ b.length by omega), hlen8, hval]
  generalize bigEndian ((b.drop i).take 4) = hi at hhi ⊢
  generalize bigEndian ((b.drop (i + 4)).take 4) = lo at hlo ⊢
  have hpow4 : (256 : Nat) ^ 4 = 4294967296 := by decide
  have hpow8 : (256 : Nat) ^ 8 = 18446744073709551616 := by decide
  rw [hpow4] at hhi hlo ⊢
  rw [hpow8]
  obtain ⟨t, ht⟩ : ∃ t, Int.bmod ((hi * 4294967296 + lo : Nat) : Int) 18446744073709551616 = t :=
    ⟨_, rfl⟩
  rw [ht]
  rw [Int.bmod_def] at ht
  unfold InReach
  rw [if_neg (by omega)]
  by_cases hneg : (hi : Int) ≥ 2147483648
  · simp only [hneg, if_true]
    split_ifs
    all_goals omega
  · simp only [hneg, if_false]
    split_ifs
    all_goals omega

/-! ## A block read -/

theorem counts_eq (hlen : h + 44 ≤ b.length) :
    (tzCountsAt b h).timecnt = headerCount b h 32 ∧ (tzCountsAt b h).typecnt = headerCount b h 36 ∧
      ∀ w : Nat, tzBlockSize (tzCountsAt b h) w = bodySize b h w := by
  have hread (k : Nat) (hk : k ≤ 40) : tzU32 b ((h : Int) + k) = headerCount b h k := by
    have := tzU32_eq (show h + k + 4 ≤ b.length by omega)
    rw [headerCount, ← this, Nat.cast_add]
  have h20 := hread 20 (by omega)
  have h24 := hread 24 (by omega)
  have h28 := hread 28 (by omega)
  have h32 := hread 32 (by omega)
  have h36 := hread 36 (by omega)
  have h40 := hread 40 (by omega)
  refine ⟨h32, h36, ?_⟩
  intro w
  show (tzU32 b (h + 32)) * w + tzU32 b (h + 32) + tzU32 b (h + 36) * 6 + tzU32 b (h + 40) +
    tzU32 b (h + 28) * (w + 4) + tzU32 b (h + 24) + tzU32 b (h + 20) = _
  rw [bodySize]
  push_cast at h20 h24 h28 h32 h36 h40 ⊢
  rw [h20, h24, h28, h32, h36, h40]

theorem counts_ok_iff :
    tzCountsOk (tzCountsAt b h) = true ↔ h + 44 ≤ b.length ∧ 1 ≤ headerCount b h 36 := by
  constructor
  · intro hok
    have hchar : 0 ≤ tzU32 b (h + 40) := by
      unfold tzCountsOk at hok
      split_ifs at hok with h1 h2
      simp only [tzCountsAt] at h1
      omega
    have hlen : h + 44 ≤ b.length := by
      by_contra hcut
      have := tzU32_cut (b := b) (i := h + 40) (by omega)
      rw [Nat.cast_add] at this
      push_cast at this
      omega
    refine ⟨hlen, ?_⟩
    obtain ⟨-, htype, -⟩ := counts_eq hlen
    unfold tzCountsOk at hok
    split_ifs at hok
    have := of_decide_eq_true hok
    omega
  · rintro ⟨hlen, htype⟩
    have hread (k : Nat) (hk : k ≤ 40) : 0 ≤ tzU32 b ((h : Int) + k) := by
      have := tzU32_eq (show h + k + 4 ≤ b.length by omega)
      rw [← Nat.cast_add, this]
      omega
    have h20 := hread 20 (by omega)
    have h24 := hread 24 (by omega)
    have h28 := hread 28 (by omega)
    have h32 := hread 32 (by omega)
    have h36 := hread 36 (by omega)
    have h40 := hread 40 (by omega)
    obtain ⟨-, htypes, -⟩ := counts_eq hlen
    push_cast at h20 h24 h28 h32 h36 h40
    unfold tzCountsOk
    rw [if_neg (by simp only [tzCountsAt]; omega), if_neg (by simp only [tzCountsAt]; omega)]
    exact decide_eq_true (by omega)

/-- A block that is not whole is read as an empty one. -/
theorem tzBlockAt_not_whole (hbad : ¬Whole b h w) : tzBlockAt b h w = tzEmptyBlock w := by
  unfold tzBlockAt
  simp only
  by_cases hok : tzCountsOk (tzCountsAt b h) = false
  · rw [if_pos hok]
  rw [if_neg hok]
  obtain ⟨hlen, htype⟩ := counts_ok_iff.1 (Bool.eq_true_of_not_eq_false hok)
  obtain ⟨-, -, hsize⟩ := counts_eq hlen
  rw [hsize w, if_pos]
  unfold Whole at hbad
  omega

/-- The times of a whole block. -/
theorem tzBlockAt_whole (hw : Whole b h w) :
    (tzBlockAt b h w).transitions = tzTimes b (h + 44 : Nat) (headerCount b h 32) w ∧
      (tzBlockAt b h w).types.length = headerCount b h 36 := by
  obtain ⟨htype, hend⟩ := hw
  have hlen : h + 44 ≤ b.length := by omega
  obtain ⟨htime, htypes, hsize⟩ := counts_eq hlen
  have hok := counts_ok_iff.2 ⟨hlen, htype⟩
  unfold tzBlockAt
  simp only
  rw [hok, if_neg (by simp), hsize w, if_neg (by omega), htime]
  refine ⟨by push_cast; rfl, ?_⟩
  rw [tzTypes, List.length_map, List.length_range, htypes, Int.toNat_natCast]

theorem tzTimes_four (hw : Whole b h 4) :
    tzTimes b (h + 44 : Nat) (headerCount b h 32) 4 = encodedTimes b h 4 := by
  unfold tzTimes encodedTimes
  rw [Int.toNat_natCast]
  apply List.map_congr_left
  intro i hi
  rw [List.mem_range] at hi
  have hend := hw.2
  unfold bodySize at hend
  rw [if_pos rfl]
  have := tzI32_eq (show h + 44 + i * 4 + 4 ≤ b.length by omega)
  rw [← this]
  push_cast
  rfl

/-- A time of eight octets as it is read. -/
def readTime (t : Int) : Int := if InReach t then t else -1

theorem tzTimes_eight (hw : Whole b h 8) :
    tzTimes b (h + 44 : Nat) (headerCount b h 32) 8 = (encodedTimes b h 8).map readTime := by
  unfold tzTimes encodedTimes
  rw [Int.toNat_natCast, List.map_map]
  apply List.map_congr_left
  intro i hi
  rw [List.mem_range] at hi
  have hend := hw.2
  unfold bodySize at hend
  rw [if_neg (by decide)]
  have := tzI64_eq (show h + 44 + i * 8 + 8 ≤ b.length by omega)
  show _ = readTime _
  rw [readTime, ← this]
  push_cast
  rfl

/-! ## The whole file -/

theorem tzVersionAt_zero (h : ¬tzVersionAt b 0 < 0) : tzVersionAt b 0 = (b.getD 4 0).toNat := by
  unfold tzVersionAt at h ⊢
  split_ifs at h ⊢ with hmagic
  · omega
  unfold tzU8 at h ⊢
  split_ifs at h ⊢
  · omega
  · rfl

theorem whole_of_types (ht : (tzBlockAt b h w).types.length ≠ 0) : Whole b h w := by
  by_contra hbad
  rw [tzBlockAt_not_whole hbad] at ht
  exact ht rfl

/-- The times that end up in an accepted zone. -/
theorem zoneParseTzif_times {name : Runtime.Str} {z : Zone} (h : zoneParseTzif b name = some z) :
    Whole b 0 4 ∧ z.first.transitions = firstTimes b ∧
      ((secondTimes b = [] ∧ z.second.transitions = []) ∨
        secondTimes b = encodedTimes b (secondHeader b) 8 ∧
          z.second = tzBlockAt b (secondHeader b) 8) := by
  unfold zoneParseTzif at h
  simp only at h
  by_cases hversion : tzVersionAt b 0 < 0
  · rw [if_pos hversion] at h
    cases h
  by_cases htypes : (tzBlockAt b 0 4).types.length = 0
  · rw [if_neg hversion, if_pos htypes] at h
    cases h
  rw [if_neg hversion, if_neg htypes] at h
  have hwhole : Whole b 0 4 := whole_of_types (h := 0) (w := 4) htypes
  have hlen : 0 + 44 ≤ b.length := by
    have := hwhole.2
    omega
  have hfirst : (tzBlockAt b 0 4).transitions = firstTimes b :=
    (tzBlockAt_whole (h := 0) hwhole).1.trans (tzTimes_four hwhole)
  have hsize : tzBlockSize (tzCountsAt b 0) 4 = bodySize b 0 4 := (counts_eq (h := 0) hlen).2.2 4
  have hsecond : (44 : Int) + bodySize b 0 4 = secondHeader b := by
    unfold secondHeader
    omega
  rw [hsize, hsecond] at h
  rw [tzVersionAt_zero hversion] at h
  unfold secondTimes
  refine ⟨hwhole, ?_⟩
  split_ifs at h with hv1 hbad
  · cases h
    rw [if_pos (by omega)]
    exact ⟨hfirst, Or.inl ⟨rfl, rfl⟩⟩
  · cases h
    rw [if_neg (by omega)]
    exact ⟨hfirst, Or.inr ⟨rfl, rfl⟩⟩

theorem map_readTime_eq : ts.map readTime = ts ↔ ∀ t ∈ ts, InReach t := by
  have hone (t : Int) : readTime t = t ↔ InReach t := by
    unfold readTime InReach
    split_ifs
    all_goals omega
  have hmap := List.map_inj_left (l := ts) (f := readTime) (g := id)
  rw [List.map_id] at hmap
  rw [hmap]
  exact forall₂_congr fun t _ => hone t

/-- The list `ts` holds the encoded times in ascending order, and every instant is looked up
rightly in it. -/
def ReadsTimes (ts encoded : List Int) : Prop :=
  ts = encoded ∧ ts.Pairwise (· < ·) ∧
    ∀ utc, ∃ r, zoneFindTransition ts utc = some r ∧ LastNotAfter encoded utc r

theorem readsTimes_iff {encoded : List Int} (hasc : encoded.Pairwise (· < ·)) :
    ReadsTimes ts encoded ↔ ts = encoded := by
  constructor
  · intro h
    exact h.1
  · rintro rfl
    exact ⟨rfl, hasc, zoneFindTransition_spec hasc⟩

/-- The times of an accepted file are read and looked up rightly exactly when the second block
encodes none, or is whole and none of them is past `2 ^ 47`. -/
theorem zone_transitions_iff {b : List UInt8} {name : Runtime.Str} {z : Zone}
    (h : zoneParseTzif b name = some z) (hfirst : (firstTimes b).Pairwise (· < ·))
    (hsecond : (secondTimes b).Pairwise (· < ·)) :
    ReadsTimes z.first.transitions (firstTimes b) ∧
        ReadsTimes z.second.transitions (secondTimes b) ↔
      secondTimes b = [] ∨
        Whole b (secondHeader b) 8 ∧ ∀ t ∈ secondTimes b, InReach t := by
  obtain ⟨-, hone, htwo⟩ := zoneParseTzif_times h
  rw [readsTimes_iff hfirst, readsTimes_iff hsecond, and_iff_right hone]
  rcases htwo with ⟨hnil, hz⟩ | ⟨henc, hz⟩
  · rw [hnil, hz]
    exact iff_of_true rfl (Or.inl rfl)
  rw [hz, henc]
  by_cases hwhole : Whole b (secondHeader b) 8
  · rw [and_iff_right hwhole, show tzBlockAt b (secondHeader b) 8 =
      tzBlockAt b (secondHeader b) (8 : Nat) from rfl, (tzBlockAt_whole hwhole).1]
    have hread := tzTimes_eight hwhole
    push_cast at hread ⊢
    rw [hread, map_readTime_eq]
    constructor
    · exact Or.inr
    · rintro (hnil | hall)
      · intro t ht
        rw [hnil] at ht
        cases ht
      · exact hall
  · rw [show tzBlockAt b (secondHeader b) 8 = tzBlockAt b (secondHeader b) (8 : Nat) from rfl,
      tzBlockAt_not_whole hwhole]
    constructor
    · intro heq
      exact Or.inl heq.symm
    · rintro (hnil | ⟨hw, -⟩)
      · exact hnil.symm
      · exact absurd hw hwhole

/-! A file with no times in its first block and two in its second. -/

def plainHeader (n : UInt8) : List UInt8 :=
  [84, 90, 105, 102, 50] ++ List.replicate 27 0 ++ [0, 0, 0, n, 0, 0, 0, 1, 0, 0, 0, 0]

def twoTimes (times : List UInt8) : List UInt8 :=
  plainHeader 0 ++ List.replicate 6 0 ++ plainHeader 2 ++ times ++ List.replicate 8 0

/-- The times -1000 and 1000. -/
def plainFile : List UInt8 :=
  twoTimes [255, 255, 255, 255, 255, 255, 252, 24, 0, 0, 0, 0, 0, 0, 3, 232]

/-- The times `-2 ^ 59` and -1000. -/
def earlyFile : List UInt8 :=
  twoTimes [248, 0, 0, 0, 0, 0, 0, 0, 255, 255, 255, 255, 255, 255, 252, 24]

theorem zone_transitions_plain : ∃ z, zoneParseTzif plainFile [] = some z ∧
    ReadsTimes z.second.transitions [-1000, 1000] := by
  have hread : (zoneParseTzif plainFile []).isSome ∧ firstTimes plainFile = [] ∧
      secondTimes plainFile = [-1000, 1000] ∧ 1 ≤ headerCount plainFile (secondHeader plainFile) 36 ∧
      secondHeader plainFile + 44 + bodySize plainFile (secondHeader plainFile) 8 ≤
        plainFile.length := by
    decide +kernel
  obtain ⟨hsome, hone, htwo, hwhole⟩ := hread
  obtain ⟨z, hz⟩ := Option.isSome_iff_exists.1 hsome
  have hasc : (secondTimes plainFile).Pairwise (· < ·) := by
    rw [htwo]
    decide
  have key := (zone_transitions_iff hz (by rw [hone]; decide) hasc).2
  rw [htwo] at key
  exact ⟨z, hz, (key (Or.inr ⟨hwhole, by decide⟩)).2⟩

/-- A time before `-2 ^ 47` is read as -1: the list is out of order, and an instant after the first
time is answered with no index at all. -/
theorem early_time_lost : secondTimes earlyFile = [-576460752303423488, -1000] ∧
    firstTimes earlyFile = [] ∧ (secondTimes earlyFile).Pairwise (· < ·) ∧
    ∃ z, zoneParseTzif earlyFile [] = some z ∧ z.second.transitions = [-1, -1000] ∧
      zoneFindTransition z.second.transitions (-5000) = some (-1) ∧
      ¬LastNotAfter (secondTimes earlyFile) (-5000) (-1) := by
  have hread : secondTimes earlyFile = [-576460752303423488, -1000] ∧ firstTimes earlyFile = [] ∧
      (zoneParseTzif earlyFile []).map (fun z => z.second.transitions) = some [-1, -1000] ∧
      zoneFindTransition [-1, -1000] (-5000) = some (-1) := by
    decide +kernel
  obtain ⟨htwo, hone, hz, hfind⟩ := hread
  obtain ⟨z, hz, hts⟩ := Option.map_eq_some_iff.1 hz
  rw [htwo]
  refine ⟨rfl, hone, by decide, z, hz, hts, ?_, ?_⟩
  · rw [hts]
    exact hfind
  · rintro (⟨-, hall⟩ | ⟨k, hk, -⟩)
    · have := hall (-576460752303423488) List.mem_cons_self
      omega
    · omega

end TimeZone
