import Resid.Runtime.Ints
import Resid.Runtime.Text

/-!
# Fixed-capacity values and their builders

A `Str(N)` is a text of at most `N` UTF-8 bytes without NUL, a `Bytes(N)` exactly `N`
bytes and a `List(T, N)` exactly `N` elements.  A push that would pass the capacity writes
nothing and only raises the length asked for, so a builder that still fits holds all that
was pushed.

    pushing the codepoints of a Str(N) finishes as that Str(N)           (StrBufN.tryFinish_text)
-/

namespace Runtime

/-! ## Codepoints -/

/-- The UTF-8 length of one codepoint. -/
def utf8Width (c : Char) : Nat :=
  if c.toNat < 128 then 1 else if c.toNat < 2048 then 2 else if c.toNat < 65536 then 3 else 4

def utf8Count (s : Str) : Nat := (s.map utf8Width).sum

theorem utf8Count_append (a b : Str) : utf8Count (a ++ b) = utf8Count a + utf8Count b := by
  rw [utf8Count, List.map_append, List.sum_append]
  rfl

theorem utf8Count_finishText_le (s : Str) : utf8Count (finishText s) ≤ utf8Count s := by
  have hsplit : finishText s ++ s.dropWhile (· != Char.ofNat 0) = s := List.takeWhile_append_dropWhile
  have hsum := congrArg utf8Count hsplit
  rw [utf8Count_append] at hsum
  omega

/-- The codepoint of a character, as the integer the run time hands out. -/
def charCode (c : Char) : IntN 64 :=
  ⟨c.toNat, by
    have hc := toNat_lt c
    rw [CheckedInt.fits_64]
    omega⟩

theorem codeChar_charCode (c : Char) : codeChar (charCode c).val = c := by
  have hvalid := c.valid
  have hcode : (charCode c).val = (c.val.toNat : Int) := rfl
  rw [codeChar, hcode, if_neg (by omega), Int.toNat_natCast]
  exact Char.ofNat_toNat c

/-- A byte as an integer. -/
def byteCode (b : UInt8) : IntN 64 :=
  ⟨b.toNat, by
    have hb := b.toNat_lt
    rw [CheckedInt.fits_64]
    omega⟩

/-! ## The values -/

@[ext] structure FixedStr (n : Nat) where
  text : Str
  fits : utf8Count text ≤ n
  noNul : ∀ c ∈ text, c ≠ Char.ofNat 0
  deriving DecidableEq

@[ext] structure FixedBytes (n : Nat) where
  bytes : List UInt8
  length_eq : bytes.length = n
  deriving DecidableEq

@[ext] structure FixedList (T : Type) (n : Nat) where
  items : List T
  length_eq : items.length = n
  deriving DecidableEq

/-! ## The builders -/

/-- A fixed-capacity builder: what was written, the length the pushes asked for, and that
nothing is missing while they fit. -/
structure FixedBuf (α : Type) (size : α → Nat) (n : Nat) where
  written : List α
  want : Nat
  whole : want ≤ n → (written.map size).sum = want

namespace FixedBuf

variable {α : Type} {size : α → Nat} {n : Nat}

def empty : FixedBuf α size n := ⟨[], 0, fun _ => rfl⟩

/-- A push that would pass the capacity writes nothing. -/
def push (b : FixedBuf α size n) (x : α) : FixedBuf α size n where
  written := if b.want + size x ≤ n then b.written ++ [x] else b.written
  want := b.want + size x
  whole := by
    intro h
    rw [if_pos h, List.map_append, List.sum_append, b.whole (by omega), List.map_singleton,
      List.sum_singleton]

def pushAll (b : FixedBuf α size n) (xs : List α) : FixedBuf α size n := xs.foldl push b

theorem pushAll_append (b : FixedBuf α size n) (xs : List α) (x : α) :
    b.pushAll (xs ++ [x]) = (b.pushAll xs).push x := by
  rw [pushAll, List.foldl_append]
  rfl

theorem sum_ones (xs : List α) : (xs.map fun _ => 1).sum = xs.length := by
  induction xs with
  | nil => rfl
  | cons x xs ih =>
    rw [List.map_cons, List.sum_cons, ih, List.length_cons]
    omega

/-- Pushes that fit together are all written. -/
theorem pushAll_fits (size : α → Nat) {xs : List α} (h : (xs.map size).sum ≤ n) :
    ((empty : FixedBuf α size n).pushAll xs).want = (xs.map size).sum ∧
      ((empty : FixedBuf α size n).pushAll xs).written = xs := by
  induction xs using List.reverseRecOn with
  | nil => exact ⟨rfl, rfl⟩
  | append_singleton xs x ih =>
    rw [List.map_append, List.sum_append, List.map_singleton, List.sum_singleton] at h ⊢
    obtain ⟨hwant, hwritten⟩ := ih (by omega)
    rw [pushAll_append]
    constructor
    · show _ + size x = _
      rw [hwant]
    · show (if _ + size x ≤ n then _ ++ [x] else _) = _
      rw [hwant, hwritten, if_pos h]

end FixedBuf

abbrev StrBufN (n : Nat) := FixedBuf Char utf8Width n

abbrev BytesBufN (n : Nat) := FixedBuf UInt8 (fun _ => 1) n

abbrev ListBufN (T : Type) (n : Nat) := FixedBuf T (fun _ => 1) n

/-- The finished text, or the length in bytes the pushes asked for. -/
def StrBufN.tryFinish {n : Nat} (b : StrBufN n) : Except Nat (FixedStr n) :=
  if h : b.want ≤ n then .ok
    ⟨finishText b.written, by
      have hwhole := b.whole h
      have hle := utf8Count_finishText_le b.written
      unfold utf8Count at hle ⊢
      omega, by
      intro c hc
      simpa using List.mem_takeWhile_imp hc⟩
  else .error b.want

/-- The finished bytes, the rest zero. -/
def BytesBufN.tryFinish {n : Nat} (b : BytesBufN n) : Except Nat (FixedBytes n) :=
  if h : b.want ≤ n then .ok
    ⟨b.written ++ List.replicate (n - b.written.length) 0, by
      have hwhole := b.whole h
      rw [FixedBuf.sum_ones] at hwhole
      rw [List.length_append, List.length_replicate]
      omega⟩
  else .error b.want

theorem ListBufN.length_filled {T : Type} {n : Nat} (b : ListBufN T n) (h : b.want ≤ n) (z : T) :
    (b.written ++ List.replicate (n - b.written.length) z).length = n := by
  have hwhole := b.whole h
  rw [FixedBuf.sum_ones] at hwhole
  rw [List.length_append, List.length_replicate]
  omega

/-- The finished list; missing elements are the type's zero, and without one the builder
answers how many it has. -/
def ListBufN.tryFinish {T : Type} {n : Nat} (zero : Option T) (b : ListBufN T n) :
    Except Nat (FixedList T n) :=
  if h : b.want ≤ n then
    if hfull : b.written.length = n then .ok ⟨b.written, hfull⟩
    else match zero with
      | none => .error b.written.length
      | some z => .ok ⟨b.written ++ List.replicate (n - b.written.length) z, b.length_filled h z⟩
  else .error b.want

/-! ## Building what was read -/

theorem finishText_of_noNul {s : Str} (h : ∀ c ∈ s, c ≠ Char.ofNat 0) : finishText s = s := by
  rw [finishText, List.takeWhile_eq_self_iff]
  intro c hc
  simpa using h c hc

theorem StrBufN.tryFinish_text {n : Nat} (x : FixedStr n) :
    StrBufN.tryFinish (FixedBuf.empty.pushAll x.text) = .ok x := by
  obtain ⟨hwant, hwritten⟩ := FixedBuf.pushAll_fits utf8Width x.fits
  have hfits := x.fits
  unfold utf8Count at hfits
  rw [StrBufN.tryFinish, dif_pos (by omega)]
  congr 1
  ext1
  show finishText _ = _
  rw [hwritten, finishText_of_noNul x.noNul]

theorem BytesBufN.tryFinish_bytes {n : Nat} (x : FixedBytes n) :
    BytesBufN.tryFinish (FixedBuf.empty.pushAll x.bytes) = .ok x := by
  have hsum : (x.bytes.map fun _ => 1).sum = n := by
    rw [FixedBuf.sum_ones, x.length_eq]
  obtain ⟨hwant, hwritten⟩ := FixedBuf.pushAll_fits (fun _ => 1) hsum.le
  rw [BytesBufN.tryFinish, dif_pos (by omega)]
  congr 1
  ext1
  show _ ++ List.replicate _ _ = _
  rw [hwritten, x.length_eq, Nat.sub_self, List.replicate_zero, List.append_nil]

theorem ListBufN.tryFinish_items {T : Type} {n : Nat} (zero : Option T) (x : FixedList T n) :
    ListBufN.tryFinish zero (FixedBuf.empty.pushAll x.items) = .ok x := by
  have hsum : (x.items.map fun _ => 1).sum = n := by
    rw [FixedBuf.sum_ones, x.length_eq]
  obtain ⟨hwant, hwritten⟩ := FixedBuf.pushAll_fits (fun _ => 1) hsum.le
  have hlen := x.length_eq
  rw [ListBufN.tryFinish, dif_pos (by omega), dif_pos (by rw [hwritten, hlen])]
  congr 1
  ext1
  exact hwritten

end Runtime
