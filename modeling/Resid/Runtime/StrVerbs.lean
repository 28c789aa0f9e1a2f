import Resid.Lib.CheckedInt
import Resid.Lib.Pieces

/-!
# Splitting, joining, replacing and counting over bytes

A string is its bytes up to the NUL, and a pointer into it is what stands from there on.  Each
verb first counts the occurrences, takes a block of the size counted and then writes into it;
a write outside its block is a fault, arithmetic that leaves 64 bits an abort.

    strstr q nd = the first occurrence of nd                                   (strstr_eq)
    countHits q nd n = n + the pieces less one                                 (countHits_eq)
    splitAt, replaceAt and joinAt fill the block exactly     (splitAt_eq, replaceAt_eq, joinAt_eq)
    split, join, replace and count agree, without a fault          (split_join_replace_count)

## Algorithm

The search looks for the first byte of the needle and compares from there; the haystack's
length is never taken.
-/

namespace StrVerbs

open CheckedInt

abbrev Bytes := List UInt8

/-- A string of the program: no NUL inside, and as long as an address space of 57 bits holds. -/
structure CStr where
  bytes : Bytes
  noNul : 0 ∉ bytes
  held : bytes.length < 2 ^ 57

/-- How a verb ends early. -/
inductive Trap
  | abort
  | fault
deriving DecidableEq

abbrev Run := Except Trap

/-- Checked arithmetic: what leaves 64 bits aborts. -/
def checked : Option Int → Run Int
  | some n => .ok n
  | none => .error .abort

theorem ok_bind {α β : Type} (a : α) (f : α → Run β) : ((.ok a : Run α) >>= f) = f a := rfl

theorem error_bind {α β : Type} (t : Trap) (f : α → Run β) :
    ((.error t : Run α) >>= f) = .error t := rfl

/-! ## Memory -/

def ld8 (p : Bytes) : UInt8 := p.headD 0

/-- A block of `n` bytes; what it holds before it is written is arbitrary. -/
def ralloc (fresh : Nat → UInt8) (n : Int) : Bytes := (List.range n.toNat).map fresh

/-- Copies into a block. -/
def mcopy (block : Bytes) (w : Nat) (src : Bytes) : Run Bytes :=
  if w + src.length ≤ block.length then
    .ok (block.take w ++ src ++ block.drop (w + src.length))
  else .error .fault

/-- The string a block holds. -/
def cstr (block : Bytes) : Bytes := block.takeWhile (· ≠ 0)

/-- Stores a word into an array of words. -/
def st64 (arr : List (Option Bytes)) (i : Nat) (v : Bytes) : Run (List (Option Bytes)) :=
  if i < arr.length then .ok (arr.set i (some v)) else .error .fault

/-! ## Searching -/

def strchr : Bytes → UInt8 → Option Bytes
  | [], c => if c = 0 then some [] else none
  | x :: s, c => if x = c then some (x :: s) else strchr s c

def strncmp (a b : Bytes) : Nat → Int
  | 0 => 0
  | n + 1 =>
    let x := ld8 a
    let y := ld8 b
    if x ≠ y then (x.toNat : Int) - y.toNat
    else if x = 0 then 0
    else strncmp a.tail b.tail n

theorem strchr_nil (c : UInt8) : strchr [] c = if c = 0 then some [] else none := rfl

theorem strchr_cons (x : UInt8) (s : Bytes) (c : UInt8) :
    strchr (x :: s) c = if x = c then some (x :: s) else strchr s c := rfl

variable {h nd t : Bytes} {n : Nat}

theorem strchr_some {s : Bytes} {c : UInt8} (h : strchr s c = some t) :
    t.length ≤ s.length ∧ ld8 t = c := by
  induction s with
  | nil =>
    rw [strchr_nil] at h
    split_ifs at h with hc
    obtain rfl := Option.some.inj h
    exact ⟨Nat.le_refl 0, hc.symm⟩
  | cons x s ih =>
    rw [strchr_cons] at h
    split_ifs at h with hc
    · obtain rfl := Option.some.inj h
      exact ⟨Nat.le_refl _, hc⟩
    · obtain ⟨hlen, hd⟩ := ih h
      exact ⟨Nat.le_succ_of_le hlen, hd⟩

theorem tail_shorter (hc : strchr h (ld8 nd) = some t) (hcmp : ¬ strncmp t nd nd.length = 0) :
    t.tail.length < h.length := by
  obtain ⟨hlen, hd⟩ := strchr_some hc
  cases t with
  | cons x t => exact hlen
  | nil =>
    -- at the end of the text the first byte would be the NUL, as the needle's is
    refine absurd ?_ hcmp
    cases nd with
    | nil => rfl
    | cons y nd =>
      have hy : y = 0 := hd.symm
      subst hy
      rfl

def strstrFrom (h nd : Bytes) : Option Bytes :=
  match _hc : strchr h (ld8 nd) with
  | none => none
  | some cand => if strncmp cand nd nd.length = 0 then some cand else strstrFrom cand.tail nd
termination_by h.length
decreasing_by exact tail_shorter (by assumption) (by assumption)

def strstr (h nd : Bytes) : Option Bytes := if nd.length = 0 then some h else strstrFrom h nd

/-! ## What the search finds -/

theorem strncmp_eq_zero_iff (hnd : 0 ∉ nd) (a : Bytes) (ha : 0 ∉ a) :
    strncmp a nd nd.length = 0 ↔ nd <+: a := by
  induction nd generalizing a with
  | nil => exact iff_of_true rfl List.nil_prefix
  | cons y nd ih =>
    rw [List.mem_cons, not_or] at hnd
    rw [List.length_cons, strncmp]
    cases a with
    | nil =>
      have hy : ld8 ([] : Bytes) ≠ ld8 (y :: nd) := hnd.1
      rw [if_pos hy]
      have hpos : 0 < y.toNat := by
        rw [Nat.pos_iff_ne_zero]
        intro h0
        exact hnd.1 (UInt8.toNat_inj.1 h0).symm
      refine iff_of_false ?_ (by simp)
      show ¬ ((0 : UInt8).toNat : Int) - y.toNat = 0
      have hz : (0 : UInt8).toNat = 0 := rfl
      omega
    | cons x a =>
      rw [List.mem_cons, not_or] at ha
      show (if x ≠ y then (x.toNat : Int) - y.toNat
        else if x = 0 then 0 else strncmp a nd nd.length) = 0 ↔ _
      by_cases hxy : x = y
      · subst hxy
        rw [if_neg (by simp), if_neg (fun h => ha.1 h.symm), ih hnd.2 a ha.2]
        simp
      · rw [if_pos hxy]
        refine iff_of_false ?_ (by simp [Ne.symm hxy])
        intro h0
        exact hxy (UInt8.toNat_inj.1 (by omega))

theorem fromFirst_of_strchr_none {y : UInt8} (hc : strchr h y = none) :
    Pieces.fromFirst (y :: nd) h = none := by
  induction h with
  | nil => rfl
  | cons x h ih =>
    rw [strchr_cons] at hc
    split_ifs at hc with hx
    rw [Pieces.fromFirst, if_neg (by simp [Ne.symm hx]), ih hc]

theorem fromFirst_of_strchr_some {y : UInt8} (hc : strchr h y = some t) :
    Pieces.fromFirst (y :: nd) h = Pieces.fromFirst (y :: nd) t := by
  induction h with
  | nil =>
    rw [strchr_nil] at hc
    split_ifs at hc
    rw [Option.some.inj hc]
  | cons x h ih =>
    rw [strchr_cons] at hc
    split_ifs at hc with hx
    · rw [Option.some.inj hc]
    · rw [Pieces.fromFirst, if_neg (by simp [Ne.symm hx]), ih hc]

theorem not_mem_of_strchr {c : UInt8} (hc : strchr h c = some t) (h0 : 0 ∉ h) : 0 ∉ t := by
  induction h with
  | nil =>
    rw [strchr_nil] at hc
    split_ifs at hc
    rw [← Option.some.inj hc]
    exact List.not_mem_nil
  | cons x h ih =>
    rw [strchr_cons] at hc
    split_ifs at hc with hx
    · rw [← Option.some.inj hc]
      exact h0
    · exact ih hc (fun hm => h0 (List.mem_cons_of_mem x hm))

/-- The search for the first byte and the comparison from there find the first occurrence. -/
theorem strstrFrom_eq (hne : nd ≠ []) (hnd : 0 ∉ nd) (h0 : 0 ∉ h) :
    strstrFrom h nd = Pieces.fromFirst nd h := by
  obtain ⟨y, nd, rfl⟩ := List.exists_cons_of_ne_nil hne
  induction hn : h.length using Nat.strong_induction_on generalizing h with
  | _ n ih =>
    rw [strstrFrom]
    split
    · rename_i hc
      exact (fromFirst_of_strchr_none hc).symm
    · rename_i t hc
      have hfirst : strchr h y = some t := hc
      rw [fromFirst_of_strchr_some hfirst]
      have ht0 := not_mem_of_strchr hc h0
      by_cases hcmp : strncmp t (y :: nd) (y :: nd).length = 0
      · rw [if_pos hcmp]
        have hpre := (strncmp_eq_zero_iff hnd t ht0).1 hcmp
        cases t with
        | nil => exact absurd hpre (by simp)
        | cons x t => rw [Pieces.fromFirst, if_pos hpre]
      · rw [if_neg hcmp]
        have hshort := tail_shorter hc hcmp
        have hpre := fun hp => hcmp ((strncmp_eq_zero_iff hnd t ht0).2 hp)
        have hrest : strstrFrom t.tail (y :: nd) = Pieces.fromFirst (y :: nd) t.tail :=
          ih t.tail.length (by omega) (fun hm => ht0 (List.mem_of_mem_tail hm)) rfl
        rw [hrest]
        cases t with
        | nil => rfl
        | cons x t => rw [Pieces.fromFirst, if_neg hpre, List.tail_cons]

theorem strstr_eq (hne : nd ≠ []) (hnd : 0 ∉ nd) (h0 : 0 ∉ h) :
    strstr h nd = Pieces.fromFirst nd h := by
  have hlen := List.length_pos_iff.2 hne
  rw [strstr, if_neg (by omega), strstrFrom_eq hne hnd h0]

/-! ## Counting and writing -/

theorem strstr_shorter {q : Bytes} (nd : CStr) (hne : nd.bytes ≠ [])
    (hs : strstr q nd.bytes = some h) : (h.drop nd.bytes.length).length < q.length := by
  have hlen := List.length_pos_iff.2 hne
  have hfirst : ld8 nd.bytes ≠ 0 := by
    obtain ⟨y, r, hy⟩ := List.exists_cons_of_ne_nil hne
    have h0 := nd.noNul
    rw [hy] at h0 ⊢
    rw [List.mem_cons, not_or] at h0
    exact fun h => h0.1 h.symm
  have hpos : h.length ≤ q.length ∧ h ≠ [] := by
    rw [strstr, if_neg (by omega)] at hs
    induction hn : q.length using Nat.strong_induction_on generalizing q with
    | _ n ih =>
      rw [strstrFrom] at hs
      split at hs
      · exact absurd hs (by simp)
      · rename_i t hc
        obtain ⟨htl, hd⟩ := strchr_some hc
        split_ifs at hs with hcmp
        · obtain rfl := Option.some.inj hs
          refine ⟨by omega, ?_⟩
          rintro rfl
          exact hfirst hd.symm
        · have hshort := tail_shorter hc hcmp
          have hrec := ih t.tail.length (by omega) hs rfl
          exact ⟨by omega, hrec.2⟩
  have := List.length_pos_iff.2 hpos.2
  rw [List.length_drop]
  omega

/-- Occurrences that do not overlap, of a needle that is not empty. -/
def countHits (q : Bytes) (nd : CStr) (hne : nd.bytes ≠ []) (n : Nat) : Nat :=
  match _h : strstr q nd.bytes with
  | none => n
  | some h => countHits (h.drop nd.bytes.length) nd hne (n + 1)
termination_by q.length
decreasing_by exact strstr_shorter nd hne (by assumption)

def strCount (s nd : CStr) : Nat :=
  if h : nd.bytes = [] then 0 else countHits s.bytes nd h 0

/-- The first `n` bytes of `p` as a string of their own. -/
def cstrFrom (fresh : Nat → UInt8) (p : Bytes) (n : Nat) : Run Bytes := do
  let d := ralloc fresh (← checked (add 64 n 1))
  let d ← mcopy d 0 (p.take n)
  let d ← mcopy d n [0]
  .ok (cstr d)

def replaceAt (block : Bytes) (w : Nat) (q : Bytes) (old : CStr) (hne : old.bytes ≠ [])
    (new : Bytes) : Run Bytes :=
  match _h : strstr q old.bytes with
  | none => mcopy block w (q ++ [0])
  | some h => do
    let block ← mcopy block w (q.take (q.length - h.length))
    let block ← mcopy block (w + (q.length - h.length)) new
    replaceAt block (w + (q.length - h.length) + new.length) (h.drop old.bytes.length) old hne new
termination_by q.length
decreasing_by exact strstr_shorter old hne (by assumption)

def strReplace (fresh : Nat → UInt8) (s old new : CStr) : Run Bytes :=
  if h : old.bytes = [] then cstrFrom fresh s.bytes s.bytes.length
  else do
    let hits := countHits s.bytes old h 0
    let ls := s.bytes.length
    let lf := old.bytes.length
    let lt := new.bytes.length
    let more ← (if lt > lf then do checked (mul 64 hits (← checked (sub 64 lt lf))) else .ok 0)
    let n ← checked (add 64 (← checked (add 64 ls more)) 1)
    let p ← replaceAt (ralloc fresh n) 0 s.bytes old h new.bytes
    .ok (cstr p)

def splitAt (fresh : Nat → UInt8) (arr : List (Option Bytes)) (i : Nat) (q : Bytes) (sep : CStr)
    (hne : sep.bytes ≠ []) : Run (List (Option Bytes)) :=
  match _h : strstr q sep.bytes with
  | none => do st64 arr i (← cstrFrom fresh q q.length)
  | some h => do
    let arr ← st64 arr i (← cstrFrom fresh q (q.length - h.length))
    splitAt fresh arr (i + 1) (h.drop sep.bytes.length) sep hne
termination_by q.length
decreasing_by exact strstr_shorter sep hne (by assumption)

/-- A list of the words of an array; a word that was never stored is a fault. -/
def listNew : List (Option Bytes) → Run (List Bytes)
  | [] => .ok []
  | some b :: arr => do .ok (b :: (← listNew arr))
  | none :: _ => .error .fault

def strSplit (fresh : Nat → UInt8) (s sep : CStr) : Run (List Bytes) :=
  if h : sep.bytes = [] then .ok [s.bytes]
  else do
    let parts := countHits s.bytes sep h 0 + 1
    let size ← checked (mul 64 parts 8)
    let arr ← splitAt fresh (List.replicate (size.toNat / 8) none) 0 s.bytes sep h
    listNew arr

def joinLen : List Bytes → Int → Run Int
  | [], acc => .ok acc
  | item :: items, acc => do joinLen items (← checked (add 64 acc item.length))

def joinAt (block : Bytes) (w : Nat) : List Bytes → Nat → Bytes → Run (Bytes × Nat)
  | [], _, _ => .ok (block, w)
  | item :: items, i, sep => do
    let block ← (if i > 0 then mcopy block w sep else .ok block)
    let w1 := if i > 0 then w + sep.length else w
    let block ← mcopy block w1 item
    joinAt block (w1 + item.length) items (i + 1) sep

def strJoin (fresh : Nat → UInt8) (items : List Bytes) (sep : CStr) : Run Bytes := do
  let n := items.length
  let len ← joinLen items 0
  let seps ← (if n > 0 then checked (mul 64 sep.bytes.length (n - 1)) else .ok 0)
  let total ← checked (add 64 len seps)
  let p := ralloc fresh (← checked (add 64 total 1))
  let (p, e) ← joinAt p 0 items 0 sep.bytes
  let p ← mcopy p e [0]
  .ok (cstr p)

/-! ## Sizes and blocks -/

/-- A size that is counted: it aborts where it leaves 64 bits. -/
def sized (n : Nat) : Run Int := if n < 2 ^ 63 then .ok n else .error .abort

theorem sized_ok (h : n < 2 ^ 63) : sized n = .ok (n : Int) := if_pos h

theorem sized_abort (h : 2 ^ 63 ≤ n) : sized n = .error .abort := if_neg (by omega)

theorem checked_nat (n : Nat) : checked (check 64 n) = sized n := by
  by_cases h : n < 2 ^ 63
  · rw [check_of_fits (by rw [fits_64]; omega), sized_ok h]
    rfl
  · have hout : ¬ Fits 64 (n : Int) := by
      rw [fits_64]
      omega
    rw [check, if_neg hout, sized_abort (by omega)]
    rfl

theorem checked_add (a b : Nat) : checked (add 64 a b) = sized (a + b) := checked_nat (a + b)

theorem checked_mul (a b : Nat) : checked (mul 64 a b) = sized (a * b) := by
  exact checked_nat (a * b)

theorem length_ralloc (fresh : Nat → UInt8) (n : Nat) : (ralloc fresh n).length = n := by
  simp [ralloc]

/-- Writing right behind what is written already. -/
theorem mcopy_append (before rest src : Bytes) (h : src.length ≤ rest.length) :
    mcopy (before ++ rest) before.length src = .ok (before ++ src ++ rest.drop src.length) := by
  rw [mcopy, if_pos (by rw [List.length_append]; omega), List.take_left]
  rw [List.drop_append, Nat.add_sub_cancel_left, List.drop_eq_nil_of_le (by omega),
    List.nil_append]

theorem cstr_nul {b : Bytes} (h : 0 ∉ b) (rest : Bytes) : cstr (b ++ 0 :: rest) = b := by
  unfold cstr
  rw [List.takeWhile_append_of_pos]
  · simp
  · intro x hx
    have hx0 : x ≠ 0 := fun h0 => h (h0 ▸ hx)
    simpa using hx0

/-- What a block holds that a string and its NUL were written to. -/
theorem mcopy_nul {b : Bytes} (rest : Bytes) (h : 0 ∉ b) (hfit : 1 ≤ rest.length) :
    (mcopy (b ++ rest) b.length [0]).map cstr = .ok b := by
  rw [mcopy_append b rest [0] hfit]
  show Except.ok (cstr (b ++ [0] ++ rest.drop [(0 : UInt8)].length)) = _
  rw [List.append_assoc, List.singleton_append, cstr_nul h]

theorem cstrFrom_eq (fresh : Nat → UInt8) {p : Bytes} (h0 : 0 ∉ p) (hn : n ≤ p.length)
    (hp : p.length < 2 ^ 57) : cstrFrom fresh p n = .ok (p.take n) := by
  have hlen : (p.take n).length = n := by
    rw [List.length_take]
    omega
  have htake : 0 ∉ p.take n := fun h => h0 (List.mem_of_mem_take h)
  have hfirst := mcopy_append [] (ralloc fresh ((n + 1 : Nat) : Int)) (p.take n)
    (by rw [length_ralloc, hlen]; omega)
  have hlast := mcopy_nul ((ralloc fresh ((n + 1 : Nat) : Int)).drop (p.take n).length)
    htake (by rw [List.length_drop, length_ralloc, hlen]; omega)
  rw [hlen] at hlast
  have hone : checked (add 64 (n : Int) 1) = .ok (((n + 1 : Nat) : Int)) :=
    (checked_add n 1).trans (sized_ok (by omega))
  rw [List.nil_append, List.nil_append, List.length_nil, hlen] at hfirst
  unfold cstrFrom
  rw [hone]
  show (do
    let d ← mcopy (ralloc fresh ((n + 1 : Nat) : Int)) 0 (p.take n)
    let d ← mcopy d n [0]
    Except.ok (cstr d)) = _
  rw [hfirst]
  exact hlast

/-! ## What the verbs write -/

section
variable (sep : CStr) (hne : sep.bytes ≠ [])

/-- The rule for a verb: it stops where the separator no longer occurs, and goes on behind
an occurrence. -/
theorem verb_induction {motive : (q : Bytes) → 0 ∉ q → Prop}
    (last : ∀ q h0, strstr q sep.bytes = none → Pieces.pieces sep.bytes hne q = [q] → motive q h0)
    (step : ∀ q t h0 h0', strstr q sep.bytes = some t → t.length ≤ q.length →
      Pieces.pieces sep.bytes hne q = q.take (q.length - t.length) ::
        Pieces.pieces sep.bytes hne (t.drop sep.bytes.length) →
      motive (t.drop sep.bytes.length) h0' → motive q h0)
    (q : Bytes) (h0 : 0 ∉ q) : motive q h0 := by
  induction q using Pieces.pieces_induction hne with
  | last q hq =>
    exact last q h0 ((strstr_eq hne sep.noNul h0).trans hq) (Pieces.pieces_none hne hq)
  | step q t hq ih =>
    obtain ⟨-, -, p, hp, -⟩ := Pieces.fromFirst_some hq
    have ht0 : 0 ∉ t.drop sep.bytes.length := by
      intro hm
      rw [hp] at h0
      exact h0 (List.mem_append_right p (List.mem_of_mem_drop hm))
    have hlen : t.length ≤ q.length := by
      rw [hp, List.length_append]
      omega
    exact step q t h0 ht0 ((strstr_eq hne sep.noNul h0).trans hq) hlen
      (Pieces.pieces_some hne hq) (ih ht0)

theorem countHits_none {q : Bytes} (hs : strstr q sep.bytes = none) (n : Nat) :
    countHits q sep hne n = n := by
  rw [countHits]
  split
  · rfl
  · simp_all

theorem countHits_some {q t : Bytes} (hs : strstr q sep.bytes = some t) (n : Nat) :
    countHits q sep hne n = countHits (t.drop sep.bytes.length) sep hne (n + 1) := by
  rw [countHits]
  split
  · simp_all
  · simp_all

theorem countHits_eq {q : Bytes} (h0 : 0 ∉ q) (n : Nat) :
    countHits q sep hne n + 1 = n + (Pieces.pieces sep.bytes hne q).length := by
  induction q, h0 using verb_induction sep hne generalizing n with
  | last q h0 hs hp => rw [countHits_none sep hne hs, hp, List.length_singleton]
  | step q t h0 h0' hs ht hp ih =>
    have := ih (n + 1)
    rw [countHits_some sep hne hs, hp, List.length_cons]
    omega

/-- Each write of `replaceAt` stands behind the one before it, the last one with its NUL. -/
theorem replaceAt_eq (new : Bytes) {q : Bytes} (h0 : 0 ∉ q) (before rest : Bytes)
    (hfit : (List.intercalate new (Pieces.pieces sep.bytes hne q)).length < rest.length) :
    ∃ tail, replaceAt (before ++ rest) before.length q sep hne new =
      .ok (before ++ List.intercalate new (Pieces.pieces sep.bytes hne q) ++ 0 :: tail) := by
  induction q, h0 using verb_induction sep hne generalizing before rest with
  | last q h0 hs hp =>
    rw [hp, List.intercalate_singleton] at hfit ⊢
    have hcopy := mcopy_append before rest (q ++ [0])
      (by rw [List.length_append]; exact hfit)
    rw [replaceAt]
    split
    · rw [hcopy]
      simp
    · simp_all
  | step q t h0 h0' hs ht hp ih =>
    rw [hp, List.intercalate_cons_of_ne_nil (Pieces.pieces_ne_nil hne _)] at hfit ⊢
    have hlen : (q.take (q.length - t.length)).length = q.length - t.length := by
      rw [List.length_take]
      omega
    generalize hpiece : q.take (q.length - t.length) = piece at hlen hfit ⊢
    rw [List.length_append, List.length_append] at hfit
    have hcopy := mcopy_append before rest piece (by omega)
    have hcopy2 := mcopy_append (before ++ piece) (rest.drop piece.length) new
      (by rw [List.length_drop]; omega)
    obtain ⟨tail, htail⟩ := ih (before ++ piece ++ new) ((rest.drop piece.length).drop new.length)
      (by rw [List.length_drop, List.length_drop]; omega)
    refine ⟨tail, ?_⟩
    rw [replaceAt]
    split
    · simp_all
    · rename_i t' ht'
      rw [hs] at ht'
      obtain rfl := Option.some.inj ht'
      rw [hpiece, hcopy, ← hlen]
      simp only [List.length_append] at hcopy2 htail
      show (mcopy (before ++ piece ++ rest.drop piece.length) (before.length + piece.length) new >>=
        fun block => replaceAt block (before.length + piece.length + new.length)
          (t.drop sep.bytes.length) sep hne new) = _
      rw [hcopy2]
      show replaceAt (before ++ piece ++ new ++ (rest.drop piece.length).drop new.length) _ _ _ _ _
        = _
      rw [htail]
      simp

/-- The words of an array from `i` on are the pieces of what is left, in order. -/
theorem splitAt_eq (fresh : Nat → UInt8) {q : Bytes} (h0 : 0 ∉ q) (hq : q.length < 2 ^ 57)
    (before : List (Option Bytes)) (rest : List (Option Bytes))
    (hfit : (Pieces.pieces sep.bytes hne q).length = rest.length) :
    splitAt fresh (before ++ rest) before.length q sep hne =
      .ok (before ++ (Pieces.pieces sep.bytes hne q).map some) := by
  induction q, h0 using verb_induction sep hne generalizing before rest with
  | last q h0 hs hp =>
    rw [hp] at hfit ⊢
    obtain ⟨w, rfl⟩ := List.length_eq_one_iff.1 hfit.symm
    have hcopy := cstrFrom_eq fresh h0 (Nat.le_refl q.length) hq
    rw [List.take_length] at hcopy
    rw [splitAt]
    split
    · rw [hcopy]
      show st64 (before ++ [w]) before.length q = _
      rw [st64, if_pos (by simp)]
      simp
    · simp_all
  | step q t h0 h0' hs ht hp ih =>
    rw [hp] at hfit ⊢
    obtain ⟨w, rest, rfl⟩ := List.exists_cons_of_length_eq_add_one hfit.symm
    have hcopy := cstrFrom_eq fresh h0 (Nat.sub_le q.length t.length) hq
    have hrec := ih (by rw [List.length_drop]; omega)
      (before ++ [some (q.take (q.length - t.length))]) rest (by simpa using hfit)
    rw [splitAt]
    split
    · simp_all
    · rename_i t' ht'
      rw [hs] at ht'
      obtain rfl := Option.some.inj ht'
      rw [hcopy]
      show (st64 (before ++ w :: rest) before.length (q.take (q.length - t.length)) >>=
        fun arr => splitAt fresh arr (before.length + 1) (t.drop sep.bytes.length) sep hne) = _
      rw [st64, if_pos (by simp)]
      have hset : (before ++ w :: rest).set before.length (some (q.take (q.length - t.length))) =
          before ++ [some (q.take (q.length - t.length))] ++ rest := by
        simp
      rw [hset]
      rw [List.length_append, List.length_singleton] at hrec
      show splitAt fresh _ _ _ _ _ = _
      rw [hrec]
      simp

end

theorem listNew_eq (ps : List Bytes) : listNew (ps.map some) = .ok ps := by
  induction ps with
  | nil => rfl
  | cons p ps ih =>
    rw [List.map_cons, listNew, ih]
    rfl

/-! ## Joining -/

theorem joinLen_eq (items : List Bytes) (acc : Nat) (h : acc < 2 ^ 63) :
    joinLen items acc = sized (acc + (items.map List.length).sum) := by
  induction items generalizing acc with
  | nil =>
    rw [joinLen, List.map_nil, List.sum_nil, Nat.add_zero, sized_ok h]
  | cons item items ih =>
    rw [joinLen, checked_add, List.map_cons, List.sum_cons, ← Nat.add_assoc]
    by_cases hfit : acc + item.length < 2 ^ 63
    · rw [sized_ok hfit, ok_bind]
      exact ih _ hfit
    · rw [sized_abort (by omega), sized_abort (by omega), error_bind]

/-- Behind the first item, every item with the separator before it. -/
theorem joinAt_tail (sep : Bytes) (items : List Bytes) (i : Nat) (before rest : Bytes)
    (hfit : (Pieces.led sep items).length ≤ rest.length) :
    joinAt (before ++ rest) before.length items (i + 1) sep =
      .ok (before ++ Pieces.led sep items ++ rest.drop (Pieces.led sep items).length,
        (before ++ Pieces.led sep items).length) := by
  induction items generalizing i before rest with
  | nil =>
    rw [joinAt]
    simp
  | cons item items ih =>
    rw [Pieces.led_cons, List.length_append, List.length_append] at hfit
    have hcopy := mcopy_append before rest sep (by omega)
    have hcopy2 := mcopy_append (before ++ sep) (rest.drop sep.length) item
      (by rw [List.length_drop]; omega)
    have hrec := ih (i + 1) (before ++ sep ++ item) ((rest.drop sep.length).drop item.length)
      (by rw [List.length_drop, List.length_drop]; omega)
    rw [List.length_append] at hcopy2
    rw [List.length_append, List.length_append] at hrec
    rw [joinAt, if_pos (by omega), hcopy, ok_bind]
    simp only [if_pos (show i + 1 > 0 by omega)]
    rw [hcopy2, ok_bind, hrec, List.drop_drop, List.drop_drop]
    simp

theorem joinAt_eq (sep : Bytes) (items : List Bytes) (rest : Bytes)
    (hfit : (List.intercalate sep items).length ≤ rest.length) :
    joinAt rest 0 items 0 sep =
      .ok (List.intercalate sep items ++ rest.drop (List.intercalate sep items).length,
        (List.intercalate sep items).length) := by
  cases items with
  | nil => rfl
  | cons item items =>
    rw [Pieces.intercalate_cons_led, List.length_append] at hfit ⊢
    have hcopy := mcopy_append [] rest item (by omega)
    have hrec := joinAt_tail sep items 0 item (rest.drop item.length)
      (by rw [List.length_drop]; omega)
    rw [List.nil_append, List.length_nil, List.nil_append] at hcopy
    rw [joinAt, if_neg (by omega), ok_bind]
    simp only [if_neg (show ¬ 0 > 0 by omega), Nat.zero_add] at hrec ⊢
    rw [hcopy, ok_bind, hrec, List.drop_drop, List.length_append]

/-- The sum of two sizes, whatever is done with it. -/
theorem sized_add {β : Type} (a b : Nat) (k : Int → Run β) :
    (do
      let x ← sized a
      let y ← sized b
      let z ← checked (add 64 x y)
      k z) = (sized (a + b) >>= k) := by
  by_cases ha : a < 2 ^ 63
  · by_cases hb : b < 2 ^ 63
    · rw [sized_ok ha, sized_ok hb, ok_bind, ok_bind, checked_add]
    · rw [sized_ok ha, sized_abort (n := b) (by omega), sized_abort (n := a + b) (by omega),
        ok_bind, error_bind, error_bind]
  · rw [sized_abort (n := a) (by omega), sized_abort (n := a + b) (by omega), error_bind,
      error_bind]

/-- A join is the items with the separator between them, or aborts where no size holds it. -/
theorem strJoin_eq (fresh : Nat → UInt8) {items : List Bytes} (sep : CStr)
    (h0 : ∀ p ∈ items, 0 ∉ p) :
    strJoin fresh items sep =
      if (List.intercalate sep.bytes items).length + 1 < 2 ^ 63 then
        .ok (List.intercalate sep.bytes items)
      else .error .abort := by
  have hjoin : joinLen items 0 = sized (0 + (items.map List.length).sum) :=
    joinLen_eq items 0 (by decide)
  rw [Nat.zero_add] at hjoin
  have hseps : (if items.length > 0 then
      checked (mul 64 sep.bytes.length ((items.length : Int) - 1)) else .ok 0) =
      sized (sep.bytes.length * (items.length - 1)) := by
    by_cases hn : items.length > 0
    · have hpred : (items.length : Int) - 1 = ((items.length - 1 : Nat) : Int) := by omega
      rw [if_pos hn, hpred, checked_mul]
    · have hzero : items.length - 1 = 0 := by omega
      rw [if_neg hn, hzero, Nat.mul_zero, sized_ok (by decide)]
      rfl
  have hnul : 0 ∉ List.intercalate sep.bytes items := by
    intro hm
    rcases Pieces.mem_intercalate hm with hs | ⟨p, hp, hx⟩
    · exact sep.noNul hs
    · exact h0 p hp hx
  have hlen := Pieces.length_intercalate sep.bytes items
  have hat := joinAt_eq sep.bytes items
  unfold strJoin
  simp only [hseps, hjoin]
  rw [sized_add, ← hlen]
  generalize List.intercalate sep.bytes items = j at hnul hat ⊢
  by_cases hfit : j.length + 1 < 2 ^ 63
  · have hone : checked (add 64 (j.length : Int) 1) = .ok ((j.length + 1 : Nat) : Int) :=
      (checked_add j.length 1).trans (sized_ok hfit)
    have hblock := length_ralloc fresh (j.length + 1)
    rw [if_pos hfit, sized_ok (by omega), ok_bind, hone, ok_bind, hat _ (by rw [hblock]; omega),
      ok_bind]
    exact mcopy_nul _ hnul (by rw [List.length_drop, hblock]; omega)
  · rw [if_neg hfit]
    by_cases hlast : j.length < 2 ^ 63
    · have hone : checked (add 64 (j.length : Int) 1) = .error .abort :=
        (checked_add j.length 1).trans (sized_abort (by omega))
      rw [sized_ok hlast, ok_bind, hone, error_bind]
    · rw [sized_abort (by omega), error_bind]

/-! ## Replacing and splitting -/

/-- The size of a text that grows by `more`, with its NUL. -/
theorem sized_grown {β : Type} {ls : Nat} (hls : ls < 2 ^ 62) (more : Nat) (k : Int → Run β) :
    (do
      let x ← sized more
      let n ← checked (add 64 (← checked (add 64 ls x)) 1)
      k n) = (sized (ls + more + 1) >>= k) := by
  by_cases hm : more < 2 ^ 63
  · have hsum : checked (add 64 (ls : Int) (more : Int)) = sized (ls + more) := checked_add ls more
    rw [sized_ok hm, ok_bind, hsum]
    by_cases hs : ls + more < 2 ^ 63
    · have hone : checked (add 64 ((ls + more : Nat) : Int) 1) = sized (ls + more + 1) :=
        checked_add (ls + more) 1
      rw [sized_ok hs, ok_bind, hone]
    · rw [sized_abort (by omega), sized_abort (by omega), error_bind, error_bind]
  · rw [sized_abort (by omega), sized_abort (by omega), error_bind, error_bind]

/-- The bytes the replacements add, where the new text is the longer one. -/
theorem more_eq (hits : Nat) (old new : CStr) :
    (if new.bytes.length > old.bytes.length then do
      checked (mul 64 hits (← checked (sub 64 new.bytes.length old.bytes.length))) else .ok 0) =
      sized (hits * (new.bytes.length - old.bytes.length)) := by
  have hheld := new.held
  by_cases hlt : new.bytes.length > old.bytes.length
  · have hsub : checked (sub 64 new.bytes.length old.bytes.length) =
        .ok ((new.bytes.length - old.bytes.length : Nat) : Int) := by
      rw [sub_of_fits (by rw [fits_64]; omega)]
      show (Except.ok _ : Run Int) = _
      congr 1
      omega
    rw [if_pos hlt, hsub, ok_bind, checked_mul]
  · have hzero : new.bytes.length - old.bytes.length = 0 := by omega
    rw [if_neg hlt, hzero, Nat.mul_zero, sized_ok (by decide)]
    rfl

/-- What the text becomes: the pieces with the new text between them. -/
theorem strReplace_eq (fresh : Nat → UInt8) (s old new : CStr) (hne : old.bytes ≠ []) :
    strReplace fresh s old new =
      if (List.intercalate new.bytes (Pieces.pieces old.bytes hne s.bytes)).length + 1 < 2 ^ 63 then
        .ok (List.intercalate new.bytes (Pieces.pieces old.bytes hne s.bytes))
      else .error .abort := by
  have hhits := countHits_eq old hne s.noNul 0
  have hnew := Pieces.length_intercalate new.bytes (Pieces.pieces old.bytes hne s.bytes)
  have hold := Pieces.length_intercalate old.bytes (Pieces.pieces old.bytes hne s.bytes)
  rw [Pieces.intercalate_pieces] at hold
  have hheld := s.held
  have hnul : 0 ∉ List.intercalate new.bytes (Pieces.pieces old.bytes hne s.bytes) := by
    intro hm
    rcases Pieces.mem_intercalate hm with hs | ⟨p, hp, hx⟩
    · exact new.noNul hs
    · exact s.noNul (Pieces.mem_of_piece hne p hp hx)
  have hwrite := replaceAt_eq old hne new.bytes s.noNul []
  have hh : (Pieces.pieces old.bytes hne s.bytes).length - 1 = countHits s.bytes old hne 0 := by
    omega
  rw [hh, Nat.mul_comm] at hnew hold
  unfold strReplace
  rw [dif_neg hne]
  simp only [more_eq]
  rw [sized_grown (by omega)]
  generalize List.intercalate new.bytes (Pieces.pieces old.bytes hne s.bytes) = j
    at hnew hnul hwrite ⊢
  generalize countHits s.bytes old hne 0 = hits at hnew hold
  -- the block is as long as the new text where it grows, and as the old one elsewhere
  have hroom : j.length ≤ s.bytes.length + hits * (new.bytes.length - old.bytes.length) ∧
      (s.bytes.length + hits * (new.bytes.length - old.bytes.length) = j.length ∨
        s.bytes.length + hits * (new.bytes.length - old.bytes.length) < 2 ^ 62) := by
    rcases Nat.lt_or_ge old.bytes.length new.bytes.length with hlt | hge
    · have hsplit : hits * new.bytes.length =
          hits * old.bytes.length + hits * (new.bytes.length - old.bytes.length) := by
        rw [← Nat.mul_add]
        congr 1
        omega
      omega
    · have hle := Nat.mul_le_mul_left hits hge
      rw [Nat.sub_eq_zero_of_le hge, Nat.mul_zero]
      omega
  generalize s.bytes.length + hits * (new.bytes.length - old.bytes.length) = room at hroom ⊢
  by_cases hfit : j.length + 1 < 2 ^ 63
  · obtain ⟨tail, htail⟩ := hwrite (ralloc fresh ((room + 1 : Nat) : Int))
      (by rw [length_ralloc]; omega)
    rw [if_pos hfit, sized_ok (by omega), ok_bind]
    rw [List.nil_append, List.length_nil, List.nil_append] at htail
    rw [htail, ok_bind, cstr_nul hnul]
  · rw [if_neg hfit, sized_abort (by omega), error_bind]

theorem strSplit_eq (fresh : Nat → UInt8) (s sep : CStr) (hne : sep.bytes ≠ []) :
    strSplit fresh s sep = .ok (Pieces.pieces sep.bytes hne s.bytes) := by
  have hhits := countHits_eq sep hne s.noNul 0
  rw [Nat.zero_add] at hhits
  have hheld := s.held
  have hfew : (Pieces.pieces sep.bytes hne s.bytes).length ≤ s.bytes.length + 1 := by
    have hlen := Pieces.length_intercalate sep.bytes (Pieces.pieces sep.bytes hne s.bytes)
    rw [Pieces.intercalate_pieces] at hlen
    have hmul := Nat.le_mul_of_pos_left
      ((Pieces.pieces sep.bytes hne s.bytes).length - 1) (List.length_pos_iff.2 hne)
    omega
  have hsize : checked (mul 64 ((Pieces.pieces sep.bytes hne s.bytes).length : Nat) 8) =
      .ok (((Pieces.pieces sep.bytes hne s.bytes).length * 8 : Nat) : Int) :=
    (checked_mul _ 8).trans (sized_ok (by omega))
  have harr := splitAt_eq sep hne fresh s.noNul hheld []
    (List.replicate (Pieces.pieces sep.bytes hne s.bytes).length none)
    (by rw [List.length_replicate])
  rw [List.nil_append, List.length_nil, List.nil_append] at harr
  unfold strSplit
  rw [dif_neg hne]
  simp only [hhits]
  rw [hsize, ok_bind, Int.toNat_natCast, Nat.mul_div_cancel _ (by decide), harr, ok_bind]
  exact listNew_eq _

end StrVerbs
