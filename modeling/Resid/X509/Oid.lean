import Mathlib.Data.Nat.Bitwise
import Mathlib.Data.Nat.Digits.Lemmas
import Resid.Lib.PrefixCode
import Resid.X509.Der

/-!
# Object identifiers and integers read back

What the strict reader accepts has one spelling: an identifier is its first octet and arcs in
septets, an integer the shortest row of octets with a clear sign bit.

    derOid b d ≠ [] → derOid b d = dotted (arcs (derValue b d))                     (derOid_eq)
    derOid b d ≠ [] → derOidStr b pos = derOid b d                               (derOidStr_eq)
    derUint b d = some v ↔ ∃ n, derValue b d = uintOctets n ∧ v = bare n      (derUint_eq_some)
-/

namespace X509

open Runtime Decimal

/-- Bytes, as the reader is given them. -/
def Octets (b : List Int) : Prop := ∀ x ∈ b, 0 ≤ x ∧ x < 256

variable {b c : List Int} {x : Int} {pos stop : Nat}

theorem Octets.range (h : Octets b) (i j : Nat) : Octets (range b i j) :=
  fun x hx => h x (List.mem_of_mem_take (List.mem_of_mem_drop hx))

theorem band_high (hx : 0 ≤ x ∧ x < 256) : band x 128 = if x < 128 then 0 else 128 := by
  obtain ⟨n, rfl⟩ := Int.eq_ofNat_of_zero_le hx.1
  have hbit : n &&& 128 = 128 * (n / 128) := by
    have h := Nat.and_two_pow n 7
    rw [Nat.toNat_testBit, show 2 ^ 7 = 128 from rfl] at h
    omega
  unfold band
  rw [Int.toNat_natCast, hbit]
  by_cases hlt : (n : Int) < 128
  · rw [if_pos hlt]
    omega
  · rw [if_neg hlt]
    omega

theorem band_low (hx : 0 ≤ x ∧ x < 128) : band x 127 = x.toNat := by
  have h : x.toNat &&& 2 ^ 7 - 1 = x.toNat % 2 ^ 7 := Nat.and_two_pow_sub_one_eq_mod _ 7
  unfold band
  exact h.trans (Nat.mod_eq_of_lt (by omega))

/-! ## Dotted numbers -/

/-- Numbers with dots between them. -/
def dotted (ds : List Nat) : Str := ['.'].intercalate (ds.map text)

theorem dotted_cons (d : Nat) (ds : List Nat) :
    dotted (d :: ds) = text d ++ ds.flatMap fun v => '.' :: text v := by
  induction ds generalizing d with
  | nil => simp [dotted]
  | cons e ds ih =>
    have hstep : dotted (d :: e :: ds) = text d ++ '.' :: dotted (e :: ds) := by
      simp [dotted]
    rw [hstep, ih e, List.flatMap_cons]
    rfl

theorem dot_not_mem_text (n : Nat) : '.' ∉ text n := by
  intro h
  have := allDigits_text n _ h
  exact absurd this (by decide)

theorem text_injective : Function.Injective text := by
  intro m n h
  rw [← value_text m, h, value_text n]

theorem dotted_inj {ds es : List Nat} (hd : ds ≠ []) (he : es ≠ []) :
    dotted ds = dotted es ↔ ds = es := by
  have hsplit {ds : List Nat} (h : ds ≠ []) : (dotted ds).splitOn '.' = ds.map text := by
    refine List.splitOn_intercalate '.' ?_ ?_
    · intro l hl
      obtain ⟨n, -, rfl⟩ := List.mem_map.1 hl
      exact dot_not_mem_text n
    · simpa using h
  constructor
  · intro h
    refine text_injective.list_map ?_
    rw [← hsplit hd, h, hsplit he]
  · intro h
    rw [h]

/-! ## Arcs -/

def natOctets (c : List Int) : List Nat := c.map Int.toNat

theorem natOctets_inj {c' : List Int} (h : Octets c) (h' : Octets c') :
    natOctets c = natOctets c' ↔ c = c' := by
  have hback {c : List Int} (h : Octets c) : (natOctets c).map (Nat.cast : Nat → Int) = c := by
    unfold natOctets
    rw [List.map_map]
    exact (List.map_congr_left fun x hx => Int.toNat_of_nonneg (h x hx).1).trans (List.map_id c)
  constructor
  · intro heq
    rw [← hback h, heq, hback h']
  · intro heq
    rw [heq]

/-- The octets are those of arcs that end: the last one is unmarked, and `inside` one more comes. -/
def Ended (c : List Int) (inside : Bool) : Prop :=
  match c with
  | [] => inside = false
  | x :: c => Ended c (decide (128 ≤ x))

theorem ended_of_last (hx : Octets (x :: c)) (h : band ((x :: c).getLastD 0) 128 = 0)
    (inside : Bool) : Ended (x :: c) inside := by
  induction c generalizing x inside with
  | nil =>
    have hb := band_high (hx x List.mem_cons_self)
    change band x 128 = 0 at h
    rw [h] at hb
    refine decide_eq_false fun hlt => ?_
    rw [if_neg (by omega)] at hb
    cases hb
  | cons y c ih =>
    show Ended (y :: c) (decide (128 ≤ x))
    refine ih (fun z hz => hx z (List.mem_cons_of_mem x hz)) ?_ (decide (128 ≤ x))
    simpa using h

theorem minimal_of_arcsOk {run : Nat} (hc : Octets c) (h : derOidArcsOk c run = true)
    (hend : Ended c (decide (0 < run))) : Septets.Minimal (natOctets c) (decide (0 < run)) := by
  induction c generalizing run with
  | nil => exact hend
  | cons x c ih =>
    have hx := hc x List.mem_cons_self
    have hb := band_high hx
    rw [derOidArcsOk] at h
    split_ifs at h with h1 h2 h3
    · -- the arc ends here
      rw [hb] at h3
      have hlt : x < 128 := by
        by_contra hge
        rw [if_neg hge] at h3
        cases h3
      have hin : decide (128 ≤ x) = false := decide_eq_false (by omega)
      refine ⟨?_, ?_, ?_⟩
      · intro _
        omega
      · omega
      · have hrest := @ih 0 (fun z hz => hc z (List.mem_cons_of_mem x hz)) h
          (by rw [Ended, hin] at hend; exact hend)
        rw [decide_eq_false (show ¬128 ≤ x.toNat by omega)]
        exact hrest
    · have hge : 128 ≤ x := by
        by_contra hlt
        rw [hb, if_pos (by omega)] at h3
        exact h3 rfl
      have hin : decide (128 ≤ x) = true := decide_eq_true hge
      refine ⟨?_, ?_, ?_⟩
      · intro hrun
        have : run = 0 := by
          have := of_decide_eq_false hrun
          omega
        omega
      · omega
      · have hrest := @ih (run + 1) (fun z hz => hc z (List.mem_cons_of_mem x hz)) h
          (by rw [Ended, hin] at hend; rw [decide_eq_true (Nat.succ_pos run)]; exact hend)
        rw [decide_eq_true (show 128 ≤ x.toNat by omega)]
        rw [decide_eq_true (Nat.succ_pos run)] at hrest
        exact hrest

/-- The text of the arcs, when none is too large. -/
theorem oidRest_eq {t : Str} {acc : Nat} {inside : Bool} (hc : Octets c) (hend : Ended c inside)
    (h : oidRest c t acc inside ≠ []) :
    oidRest c t acc inside = t ++ (Septets.read (natOctets c) acc).flatMap fun v => '.' :: text v := by
  induction c generalizing t acc inside with
  | nil =>
    have hin : inside = false := hend
    rw [hin]
    simp [oidRest, natOctets, Septets.read]
  | cons x c ih =>
    have hx := hc x List.mem_cons_self
    have hrest : Octets c := fun z hz => hc z (List.mem_cons_of_mem x hz)
    have hb := band_high hx
    rw [oidRest] at h ⊢
    simp only at h ⊢
    by_cases hbig : acc > 562949953421311
    · rw [if_pos hbig] at h
      exact absurd rfl h
    rw [if_neg hbig] at h ⊢
    show _ = t ++ (Septets.read (x.toNat :: natOctets c) acc).flatMap fun v => '.' :: text v
    rw [Septets.read]
    by_cases hlast : x < 128
    · rw [hb, if_pos hlast] at h ⊢
      rw [if_neg (by omega)] at h ⊢
      rw [ih hrest (by rw [Ended, decide_eq_false (by omega)] at hend; exact hend) h,
        if_pos (by omega), List.flatMap_cons, intText_natCast, Nat.sub_zero]
      simp
    · rw [hb, if_neg hlast] at h ⊢
      rw [if_pos (by omega)] at h ⊢
      rw [ih hrest (by rw [Ended, decide_eq_true (by omega)] at hend; exact hend) h,
        if_neg (by omega)]

/-! ## Elements -/

/-- An element read at `pos` lies inside the input, behind its header. -/
theorem derAt_span (h : (derAt b pos stop).ok = true) :
    (derAt b pos stop).pos = pos ∧ pos + 2 ≤ (derAt b pos stop).start ∧
      (derAt b pos stop).next = (derAt b pos stop).start + (derAt b pos stop).len ∧
        (derAt b pos stop).next ≤ b.length := by
  have key {d : Der} {tag : Int} {start len : Nat} (hs : pos + 2 ≤ start)
      (hd : d = derFit tag pos start len (min stop b.length)) (hok : d.ok = true) :
      d.pos = pos ∧ pos + 2 ≤ d.start ∧ d.next = d.start + d.len ∧ d.next ≤ b.length := by
    rw [hd] at hok ⊢
    obtain ⟨hle, heq⟩ := of_derFit hok
    rw [heq]
    exact ⟨rfl, hs, rfl, le_trans hle (min_le_right _ _)⟩
  obtain ⟨d, hd⟩ : ∃ d, d = derAt b pos stop := ⟨_, rfl⟩
  rw [← hd] at h ⊢
  unfold derAt at hd
  simp only at hd
  split_ifs at hd
  all_goals first
    | (exact key (by omega) hd h)
    | (rw [hd] at h; cases h)

theorem at0_range (hb : Octets b) (i : Nat) : 0 ≤ at0 b i ∧ at0 b i < 256 := by
  unfold at0
  by_cases h : i < b.length
  · rw [List.getD_eq_getElem b 0 h]
    exact hb _ (List.getElem_mem h)
  · rw [List.getD_eq_default b 0 (by omega)]
    omega

theorem derNext_eq (hb : Octets b) (h : (derAt b pos stop).ok = true) :
    derNext b pos = ⟨(derAt b pos stop).tag, derClsOf (derAt b pos stop).tag,
      (derAt b pos stop).start - pos, (derAt b pos stop).len⟩ := by
  have hfit {d : Der} {start len : Nat} (hpos : pos + 2 ≤ b.length)
      (hd : d = derFit (at0 b pos) pos start len (min stop b.length)) (hok : d.ok = true)
      (hread : derReadLen b (pos + 1) = len) (hhdr : derHdrLen b (pos + 1) = start - pos - 1) :
      derNext b pos = ⟨d.tag, derClsOf d.tag, d.start - pos, d.len⟩ := by
    rw [hd] at hok
    obtain ⟨hle, heq⟩ := of_derFit hok
    have hlim := min_le_right stop b.length
    unfold derNext
    rw [if_neg (by omega), hread, hhdr]
    simp only [Int.toNat_natCast]
    rw [if_neg (by omega), if_neg (by omega), hd, heq]
    simp only [DerTlv.mk.injEq, true_and, and_true]
    omega
  obtain ⟨d, hd⟩ : ∃ d, d = derAt b pos stop := ⟨_, rfl⟩
  rw [← hd] at h ⊢
  have hlim := min_le_right stop b.length
  have hpos1 : ((pos : Int) + 1).toNat = pos + 1 := by omega
  have hl0 := at0_range hb (pos + 1)
  unfold derAt at hd
  simp only at hd
  split_ifs at hd with hshort htag hlow hcnt hzero hlong
  · rw [hd] at h
    cases h
  · rw [hd] at h
    cases h
  · -- the length in one octet
    refine hfit (by omega) hd h ?_ ?_
    · unfold derReadLen
      simp only [hpos1]
      rw [if_neg (by omega), if_pos hlow]
      omega
    · unfold derHdrLen
      simp only [hpos1]
      rw [if_neg (by omega), if_pos hlow]
      omega
  · rw [hd] at h
    cases h
  · rw [hd] at h
    cases h
  · rw [hd] at h
    cases h
  · -- and in the octets behind it
    refine hfit (by omega) hd h ?_ ?_
    · unfold derReadLen
      simp only [hpos1]
      rw [if_neg (by omega), if_neg hlow, if_neg (by omega), if_neg (by omega), if_neg (by omega)]
      congr 3
      omega
    · unfold derHdrLen
      simp only [hpos1]
      rw [if_neg (by omega), if_neg hlow]
      omega

/-- The lenient reader finds the same content there. -/
theorem derContent_eq (hb : Octets b) (h : (derAt b pos stop).ok = true) :
    derContent b pos = derValue b (derAt b pos stop) := by
  obtain ⟨hpos, hstart, hnext, hin⟩ := derAt_span h
  unfold derContent derSliceSeeded derValue
  rw [derNext_eq hb h, if_pos h]
  simp only
  rw [if_neg (by omega)]
  by_cases hzero : (derAt b pos stop).len = 0
  · rw [if_pos (by omega), hnext, hzero, range, List.drop_take]
    simp
  · rw [if_neg (by omega)]
    congr 1 <;> omega

/-! ## Identifiers -/

/-- The two arcs of the first octet. -/
def firstArc (x : Int) : Nat := if x < 40 then 0 else if x < 80 then 1 else 2

def secondArc (x : Int) : Nat := x.toNat - 40 * firstArc x

theorem firstArc_secondArc (h : 0 ≤ x) : (40 * firstArc x + secondArc x : Nat) = x := by
  unfold secondArc firstArc
  split_ifs <;> omega

theorem head_text (h : 0 ≤ x) : intText (if x < 40 then 0 else if x < 80 then 1 else 2) ++ '.' ::
      intText (x - (if x < 40 then 0 else if x < 80 then 1 else 2) * 40) =
        dotted [firstArc x, secondArc x] := by
  have hfirst : (if x < 40 then 0 else if x < 80 then 1 else 2 : Int) = (firstArc x : Nat) := by
    unfold firstArc
    split_ifs <;> rfl
  have hsecond : x - (firstArc x : Nat) * 40 = (secondArc x : Nat) := by
    have := firstArc_secondArc h
    omega
  rw [hfirst, hsecond, intText_natCast, intText_natCast]
  simp [dotted]

/-- The arcs an identifier's content spells. -/
def arcs (c : List Int) : List Nat :=
  firstArc (at0 c 0) :: secondArc (at0 c 0) :: Septets.read (natOctets (c.drop 1)) 0

/-- A content as the strict reader wants it. -/
def Canonical (c : List Int) : Prop :=
  c ≠ [] ∧ at0 c 0 < 128 ∧ Septets.Minimal (natOctets (c.drop 1)) false

theorem arcs_inj {c' : List Int} (hc : Octets c) (hc' : Octets c') (h : Canonical c)
    (h' : Canonical c') : arcs c = arcs c' ↔ c = c' := by
  constructor
  · intro heq
    obtain ⟨hne, -, hmin⟩ := h
    obtain ⟨hne', -, hmin'⟩ := h'
    obtain ⟨x, c, rfl⟩ := List.exists_cons_of_ne_nil hne
    obtain ⟨x', c', rfl⟩ := List.exists_cons_of_ne_nil hne'
    injection heq with hfirst hrest
    injection hrest with hsecond hread
    have hx := (firstArc_secondArc (hc x List.mem_cons_self).1).symm
    have hx' := (firstArc_secondArc (hc' x' List.mem_cons_self).1).symm
    have hsame : x = x' := by
      change firstArc x = firstArc x' at hfirst
      change secondArc x = secondArc x' at hsecond
      rw [hx, hx', hfirst, hsecond]
    have htail := (Septets.read_inj hmin hmin').1 hread
    rw [hsame, (natOctets_inj (fun y hy => hc y (List.mem_cons_of_mem x hy))
      (fun y hy => hc' y (List.mem_cons_of_mem x' hy))).1 htail]
  · intro heq
    rw [heq]

/-- The content of an element the strict reader can take for an identifier. -/
theorem derValue_octets (hb : Octets b) (d : Der) : Octets (derValue b d) := by
  unfold derValue
  split_ifs
  · exact hb.range _ _
  · intro x hx
    cases hx

theorem length_derValue (h : (derAt b pos stop).ok = true) :
    (derValue b (derAt b pos stop)).length = (derAt b pos stop).len := by
  obtain ⟨-, -, hnext, hin⟩ := derAt_span h
  unfold derValue range
  rw [if_pos h, List.length_drop, List.length_take]
  omega

/-- What the strict reader accepts, and what it answers. -/
theorem derOid_cons (hb : Octets b) (h : derOid b (derAt b pos stop) ≠ []) :
    ∃ x c, derValue b (derAt b pos stop) = x :: c ∧ (derAt b pos stop).ok = true ∧ x < 128 ∧
      band ((x :: c).getLastD 0) 128 = 0 ∧ Septets.Minimal (natOctets c) false ∧
        derOid b (derAt b pos stop) = oidRest c (dotted [firstArc x, secondArc x]) 0 false ∧
          derOid b (derAt b pos stop) = dotted (arcs (x :: c)) := by
  unfold derOid at h ⊢
  by_cases hhead : (!(derAt b pos stop).ok || (derAt b pos stop).tag != 6 ||
      (derAt b pos stop).len < 1 || (derAt b pos stop).len > 64) = true
  · rw [if_pos hhead] at h
    exact absurd rfl h
  rw [if_neg hhead] at h ⊢
  simp only [Bool.or_eq_true, Bool.not_eq_true', bne_iff_ne, decide_eq_true_eq, not_or] at hhead
  obtain ⟨⟨⟨hok, -⟩, hlen⟩, -⟩ := hhead
  have hok : (derAt b pos stop).ok = true := by simpa using hok
  have hval : range b (derAt b pos stop).start (derAt b pos stop).next =
      derValue b (derAt b pos stop) := by
    rw [derValue, if_pos hok]
  rw [hval] at h ⊢
  have hc := derValue_octets hb (derAt b pos stop)
  have hne : derValue b (derAt b pos stop) ≠ [] := by
    intro hnil
    have := length_derValue hok
    rw [hnil] at this
    exact hlen (by rw [← this]; exact Nat.zero_lt_one)
  obtain ⟨x, c, hxc⟩ := List.exists_cons_of_ne_nil hne
  rw [hxc] at h hc ⊢
  have hx := hc x List.mem_cons_self
  have htail : Octets c := fun y hy => hc y (List.mem_cons_of_mem x hy)
  simp only at h ⊢
  by_cases hlast : band ((x :: c).getLastD 0) 128 ≠ 0
  · rw [if_pos hlast] at h
    exact absurd rfl h
  rw [if_neg hlast] at h ⊢
  by_cases harcs : (!derOidArcsOk (x :: c) 0) = true
  · rw [if_pos harcs] at h
    exact absurd rfl h
  rw [if_neg harcs] at h ⊢
  by_cases hbig : at0 (x :: c) 0 ≥ 128
  · rw [if_pos hbig] at h
    exact absurd rfl h
  rw [if_neg hbig] at h ⊢
  change ¬x ≥ 128 at hbig
  rw [show at0 (x :: c) 0 = x from rfl, List.drop_one, List.tail_cons, head_text hx.1] at h ⊢
  have hzero : band ((x :: c).getLastD 0) 128 = 0 := not_not.1 hlast
  have hend : Ended c false := by
    have := ended_of_last hc hzero false
    rw [Ended, decide_eq_false hbig] at this
    exact this
  have hmin : Septets.Minimal (natOctets c) false := by
    refine @minimal_of_arcsOk c 0 htail ?_ hend
    have hok : derOidArcsOk (x :: c) 0 = true := by simpa using harcs
    rw [derOidArcsOk, if_neg (by omega), if_neg (by omega), band_high hx,
      if_pos (show x < 128 by omega), if_pos rfl] at hok
    exact hok
  refine ⟨x, c, rfl, hok, by omega, hzero, hmin, rfl, ?_⟩
  rw [oidRest_eq htail hend h, arcs, dotted_cons, dotted_cons]
  simp [at0]

theorem derOid_eq (hb : Octets b) (h : derOid b (derAt b pos stop) ≠ []) :
    Canonical (derValue b (derAt b pos stop)) ∧
      derOid b (derAt b pos stop) = dotted (arcs (derValue b (derAt b pos stop))) := by
  obtain ⟨x, c, hxc, -, hlow, -, hmin, -, heq⟩ := derOid_cons hb h
  rw [heq, hxc]
  exact ⟨⟨List.cons_ne_nil x c, hlow, hmin⟩, rfl⟩

/-- The lenient reader answers the same for such an element. -/
theorem derOidStr_eq (hb : Octets b) (h : derOid b (derAt b pos stop) ≠ []) :
    derOidStr b pos = derOid b (derAt b pos stop) := by
  obtain ⟨x, c, hxc, hok, hlow, hlast, -, heq, -⟩ := derOid_cons hb h
  have hx := derValue_octets hb (derAt b pos stop) x (by rw [hxc]; exact List.mem_cons_self)
  have hfirst : oidFirst (x :: c) 0 = some (x.toNat, c) := by
    rw [oidFirst, if_neg (by omega), band_high hx, if_pos hlow, band_low ⟨hx.1, hlow⟩]
    simp
  unfold derOidStr
  rw [derContent_eq hb hok, hxc]
  simp only
  rw [if_neg (by simp), if_neg (not_not.2 hlast), hfirst, heq]
  simp only
  congr 1
  obtain ⟨n, rfl⟩ := Int.eq_ofNat_of_zero_le hx.1
  have hpair (a r : Nat) : dotted [a, r] = text a ++ '.' :: text r := by
    simp [dotted]
  rw [hpair, Int.toNat_natCast]
  by_cases hsmall : n < 80
  · rw [if_pos hsmall, intText_natCast, intText_natCast]
    have hdiv : n / 40 = firstArc n := by
      unfold firstArc
      split_ifs <;> omega
    have hmod : n % 40 = secondArc n := by
      unfold secondArc
      rw [← hdiv]
      omega
    rw [hdiv, hmod]
  · have htwo : firstArc n = 2 := by
      unfold firstArc
      rw [if_neg (by omega), if_neg (by omega)]
    have hrest : ((n : Int) - 80) = (secondArc n : Nat) := by
      unfold secondArc
      rw [htwo]
      omega
    rw [if_neg hsmall, hrest, intText_natCast, htwo]
    rfl

/-! ## Integers -/

/-- The octets of `n`, the most significant first. -/
def magnitude (n : Nat) : List Int := (Nat.digits 256 n).reverse.map Nat.cast

/-- The octets of `n`, one at least. -/
def bare (n : Nat) : List Int := if n = 0 then [0] else magnitude n

/-- The shortest row of octets for `n` whose sign bit is clear. -/
def uintOctets (n : Nat) : List Int := if at0 (bare n) 0 ≥ 128 then 0 :: bare n else bare n

/-- The number that octets spell. -/
def number (c : List Int) : Nat := Nat.ofDigits 256 (natOctets c).reverse

theorem natOctets_cast (ds : List Nat) : natOctets (ds.map Nat.cast) = ds := by
  unfold natOctets
  rw [List.map_map]
  exact List.map_id ds

theorem number_magnitude (n : Nat) : number (magnitude n) = n := by
  rw [number, magnitude, natOctets_cast, List.reverse_reverse, Nat.ofDigits_digits]

theorem octets_cast (hc : Octets c) : (natOctets c).map Nat.cast = c := by
  unfold natOctets
  rw [List.map_map]
  exact (List.map_congr_left fun x hx => Int.toNat_of_nonneg (hc x hx).1).trans (List.map_id c)

/-- Octets without a zero in front are those of their number. -/
theorem magnitude_number (hc : Octets (x :: c)) (hx : x ≠ 0) :
    magnitude (number (x :: c)) = x :: c := by
  have hdig : Nat.digits 256 (number (x :: c)) = (natOctets (x :: c)).reverse := by
    refine Nat.digits_ofDigits 256 (by decide) _ ?_ ?_
    · intro d hd
      obtain ⟨y, hy, rfl⟩ := List.mem_map.1 (List.mem_reverse.1 hd)
      have := hc y hy
      omega
    · intro hne
      have := hc x List.mem_cons_self
      rw [List.getLast_reverse]
      show x.toNat ≠ 0
      omega
  rw [magnitude, hdig, List.reverse_reverse, octets_cast hc]

/-- The octets the strict reader hands out, by the content alone. -/
def uintOf : List Int → Option (List Int)
  | [] => none
  | x :: c =>
    if x ≥ 128 then none
    else if c ≠ [] ∧ x = 0 ∧ at0 c 0 < 128 then none
    else some (if x = 0 ∧ c ≠ [] then c else x :: c)

theorem range_cons {i j : Nat} (h : range b i j = x :: c) :
    at0 b i = x ∧ range b (i + 1) j = c := by
  constructor
  · have hget : ((b.take j).drop i)[0]? = some x := by
      rw [show (b.take j).drop i = x :: c from h]
      rfl
    rw [List.getElem?_drop, Nat.add_zero] at hget
    have hb : b[i]? = some x := by
      rw [List.getElem?_take] at hget
      split_ifs at hget
      exact hget
    rw [at0, List.getD_eq_getElem?_getD, hb]
    rfl
  · rw [range, ← List.drop_drop, show (b.take j).drop i = x :: c from h]
    rfl

theorem derUint_eq : derUint b (derAt b pos stop) =
      if (derAt b pos stop).ok ∧ (derAt b pos stop).tag = 2 then uintOf (derValue b (derAt b pos stop))
      else none := by
  by_cases hok : (derAt b pos stop).ok = true
  · obtain ⟨-, -, hnext, hin⟩ := derAt_span hok
    have hlen := length_derValue hok
    have hval : derValue b (derAt b pos stop) =
        range b (derAt b pos stop).start (derAt b pos stop).next := by
      rw [derValue, if_pos hok]
    by_cases htag : (derAt b pos stop).tag = 2
    · rw [if_pos ⟨hok, htag⟩]
      unfold derUint
      cases hc : derValue b (derAt b pos stop) with
      | nil =>
        rw [hc] at hlen
        simp [← hlen, uintOf]
      | cons x c =>
        rw [hc] at hlen hval
        obtain ⟨hx, hrest⟩ := range_cons hval.symm
        rw [uintOf]
        by_cases hneg : x ≥ 128
        · simp [hok, htag, hx, hneg]
        rw [if_neg hneg]
        cases c with
        | nil =>
          have hone : (derAt b pos stop).len = 1 := by rw [← hlen]; rfl
          simp [hok, htag, hx, hneg, hone, ← hval]
        | cons y c =>
          have hy := (range_cons hrest).1
          have hlong : 1 < (derAt b pos stop).len := by rw [← hlen]; simp
          have hsome : ¬(derAt b pos stop).len < 1 := by omega
          by_cases hzero : x = 0
          · have hsecond : at0 (y :: c) 0 = y := rfl
            rw [hzero] at hx ⊢
            simp [hok, htag, hx, hy, hlong, hsome, hrest, hsecond]
          · simp [hok, htag, hx, hneg, hsome, hzero, ← hval]
    · rw [if_neg fun h => htag h.2, derUint]
      simp [htag]
  · rw [if_neg fun h => hok h.1, derUint]
    simp [hok]

theorem number_bare (n : Nat) : number (bare n) = n := by
  unfold bare
  split_ifs with h
  · rw [h]
    rfl
  · exact number_magnitude n

/-- A number that is not zero starts with a digit that is not. -/
theorem magnitude_cons {n : Nat} (h : n ≠ 0) : ∃ x c, magnitude n = x :: c ∧ x ≠ 0 := by
  have hne : Nat.digits 256 n ≠ [] := Nat.digits_ne_nil_iff_ne_zero.2 h
  have hlast := Nat.getLast_digit_ne_zero 256 h
  refine ⟨((Nat.digits 256 n).getLast hne : Nat),
    ((Nat.digits 256 n).dropLast).reverse.map Nat.cast, ?_, by exact_mod_cast hlast⟩
  unfold magnitude
  conv_lhs => rw [← List.dropLast_append_getLast hne]
  rw [List.reverse_append]
  rfl

/-- The octets handed out are those of a number, and the content is its shortest row. -/
theorem uintOf_eq_some {v : List Int} (hc : Octets c) :
    uintOf c = some v ↔ ∃ n, c = uintOctets n ∧ v = bare n := by
  have hbare {x : Int} {c : List Int} (hc : Octets (x :: c)) (hx : x ≠ 0) :
      bare (number (x :: c)) = x :: c := by
    have hmag := magnitude_number hc hx
    rw [bare, if_neg, hmag]
    intro hzero
    rw [hzero] at hmag
    cases hmag
  constructor
  · intro h
    cases c with
    | nil => cases h
    | cons x c =>
      rw [uintOf] at h
      split_ifs at h with hneg hpad hsign
      · -- a sign octet, and behind it a digit that needs one
        obtain ⟨rfl, hne⟩ := hsign
        obtain ⟨y, c, rfl⟩ := List.exists_cons_of_ne_nil hne
        have hy : 128 ≤ y := by
          by_contra hlow
          exact hpad ⟨hne, rfl, not_le.1 hlow⟩
        have heq := hbare (fun z hz => hc z (List.mem_cons_of_mem 0 hz)) (show y ≠ 0 by omega)
        refine ⟨number (y :: c), ?_, ?_⟩
        · rw [uintOctets, heq, if_pos (show at0 (y :: c) 0 ≥ 128 from hy)]
        · rw [heq, Option.some.inj h]
      · by_cases hx : x = 0
        · have hnil : c = [] := by
            by_contra hne
            exact hsign ⟨hx, hne⟩
          refine ⟨0, ?_, ?_⟩
          · rw [hx, hnil]
            rfl
          · rw [← Option.some.inj h, hx, hnil]
            rfl
        · have heq := hbare hc hx
          refine ⟨number (x :: c), ?_, ?_⟩
          · rw [uintOctets, heq, if_neg (show ¬at0 (x :: c) 0 ≥ 128 from hneg)]
          · rw [heq, Option.some.inj h]
  · rintro ⟨n, rfl, rfl⟩
    by_cases hn : n = 0
    · rw [hn]
      rfl
    · obtain ⟨x, c, hxc, hx⟩ := magnitude_cons hn
      have heq : bare n = x :: c := by rw [bare, if_neg hn, hxc]
      rw [uintOctets, heq]
      by_cases hbig : at0 (x :: c) 0 ≥ 128
      · have hge : 128 ≤ x := hbig
        rw [if_pos hbig, uintOf, if_neg (by decide), if_neg, if_pos ⟨rfl, List.cons_ne_nil x c⟩]
        rintro ⟨-, -, hlt⟩
        exact absurd hlt (not_lt.2 hge)
      · rw [if_neg hbig, uintOf, if_neg (show ¬x ≥ 128 from hbig), if_neg fun h => hx h.2.1,
          if_neg fun h => hx h.1]

theorem derUint_eq_some (hb : Octets b) {v : List Int} : derUint b (derAt b pos stop) = some v ↔
      (derAt b pos stop).ok = true ∧ (derAt b pos stop).tag = 2 ∧
        ∃ n, derValue b (derAt b pos stop) = uintOctets n ∧ v = bare n := by
  rw [derUint_eq]
  constructor
  · intro h
    split_ifs at h with hint
    exact ⟨hint.1, hint.2, (uintOf_eq_some (derValue_octets hb _)).1 h⟩
  · rintro ⟨hok, htag, h⟩
    rw [if_pos ⟨hok, htag⟩]
    exact (uintOf_eq_some (derValue_octets hb _)).2 h

/-! ## One spelling each -/

/-- An identifier the strict reader answers is the dotted text of its arcs, the lenient reader
answers the same, and no other content has these arcs.  A non-negative integer is accepted in its
shortest row of octets alone, so that its value tells its content. -/
theorem readings_canonical {b b' : List Int} (hb : Octets b) (hb' : Octets b')
    (pos stop pos' stop' : Nat) :
    (derOid b (derAt b pos stop) ≠ [] →
        ∃ as, as ≠ [] ∧ derOid b (derAt b pos stop) = dotted as ∧ derOidStr b pos = dotted as) ∧
      (∀ as, as ≠ [] → derOid b (derAt b pos stop) = dotted as →
        derOid b' (derAt b' pos' stop') = dotted as →
          derValue b (derAt b pos stop) = derValue b' (derAt b' pos' stop')) ∧
      ((derUint b (derAt b pos stop)).isSome ↔
        (derAt b pos stop).ok = true ∧ (derAt b pos stop).tag = 2 ∧
          ∃ n, derValue b (derAt b pos stop) = uintOctets n) ∧
      ∀ v v', derUint b (derAt b pos stop) = some v →
        derUint b' (derAt b' pos' stop') = some v' → number v = number v' →
          derValue b (derAt b pos stop) = derValue b' (derAt b' pos' stop') := by
  refine ⟨?_, ?_, ?_, ?_⟩
  · intro h
    obtain ⟨-, heq⟩ := derOid_eq hb h
    exact ⟨_, List.cons_ne_nil _ _, heq, (derOidStr_eq hb h).trans heq⟩
  · intro as has h h'
    have hne {as : List Nat} (has : as ≠ []) : dotted as ≠ [] := by
      obtain ⟨d, ds, rfl⟩ := List.exists_cons_of_ne_nil has
      rw [dotted_cons]
      intro hnil
      exact text_ne_nil d (List.append_eq_nil_iff.1 hnil).1
    obtain ⟨hcan, heq⟩ := derOid_eq hb (by rw [h]; exact hne has)
    obtain ⟨hcan', heq'⟩ := derOid_eq hb' (by rw [h']; exact hne has)
    refine (arcs_inj (derValue_octets hb _) (derValue_octets hb' _) hcan hcan').1 ?_
    exact (dotted_inj (List.cons_ne_nil _ _) (List.cons_ne_nil _ _)).1
      (heq.symm.trans (h.trans (h'.symm.trans heq')))
  · constructor
    · intro h
      obtain ⟨v, hv⟩ := Option.isSome_iff_exists.1 h
      obtain ⟨hok, htag, n, hn, -⟩ := (derUint_eq_some hb).1 hv
      exact ⟨hok, htag, n, hn⟩
    · rintro ⟨hok, htag, n, hn⟩
      rw [(derUint_eq_some hb).2 ⟨hok, htag, n, hn, rfl⟩]
      rfl
  · intro v v' h h' heq
    obtain ⟨-, -, n, hn, rfl⟩ := (derUint_eq_some hb).1 h
    obtain ⟨-, -, n', hn', rfl⟩ := (derUint_eq_some hb').1 h'
    rw [number_bare, number_bare] at heq
    rw [hn, hn', heq]

theorem readings_canonical_attribute :
    derOidStr [6, 3, 85, 4, 3] 0 = "2.5.4.3".toList ∧
      (derUint [2, 2, 0, 200] (derAt [2, 2, 0, 200] 0 4)).isSome = true := by
  have hb : Octets [6, 3, 85, 4, 3] := by
    intro x hx
    simp only [List.mem_cons, List.not_mem_nil, or_false] at hx
    omega
  have hb' : Octets [2, 2, 0, 200] := by
    intro x hx
    simp only [List.mem_cons, List.not_mem_nil, or_false] at hx
    omega
  have hname : derOid [6, 3, 85, 4, 3] (derAt [6, 3, 85, 4, 3] 0 5) = "2.5.4.3".toList := by
    decide
  obtain ⟨as, -, hderOid, hderOidStr⟩ := (readings_canonical hb hb' 0 5 0 4).1 (by
    rw [hname]
    decide)
  refine ⟨hderOidStr.trans (hderOid.symm.trans hname), ?_⟩
  exact (readings_canonical hb' hb 0 4 0 5).2.2.1.2 ⟨by decide, by decide, 200, by decide⟩

/-- The lenient reader drops the zero digit in front of an arc, which the strict one refuses. -/
theorem padded_arc_read :
    derOidStr [6, 3, 42, 128, 1] 0 = "1.2.1".toList ∧
      derOid [6, 3, 42, 128, 1] (derAt [6, 3, 42, 128, 1] 0 5) = [] := by
  decide

end X509
