import Resid.Cbor.Head
import Resid.Runtime.Fixed

/-!
# UTF-8 in both directions

A text is written codepoint by codepoint, one to four bytes each.  Reading back takes a lead byte
and the continuation bytes it asks for; what is not of that form is an error.

    cbCpAt (cbCpBytes c here) = ok ⟨c.toNat, just past it⟩            (cbCpAt_bytes)
    cbStrAt (cbStrBytes s here) = ok s, when no NUL is in s           (cbStrAt_bytes)

## Algorithm

The bits of a codepoint are gathered six at a time below the bits of the lead byte.
-/

namespace Cbor

open Runtime Serial

def syntaxError (msg : Str) : SerialError := serialError .errSyntax msg

/-! ## Written -/

/-- The bytes of one codepoint. -/
def cbCpBytes (c : Char) : List UInt8 :=
  let cp := c.toNat
  let w := utf8Width c
  if w = 1 then [UInt8.ofNat cp]
  else if w = 2 then [UInt8.ofNat (192 + cp >>> 6), UInt8.ofNat (128 + (cp &&& 63))]
  else if w = 3 then
    [UInt8.ofNat (224 + cp >>> 12), UInt8.ofNat (128 + (cp >>> 6 &&& 63)),
      UInt8.ofNat (128 + (cp &&& 63))]
  else
    [UInt8.ofNat (240 + cp >>> 18), UInt8.ofNat (128 + (cp >>> 12 &&& 63)),
      UInt8.ofNat (128 + (cp >>> 6 &&& 63)), UInt8.ofNat (128 + (cp &&& 63))]

def cbStrBytes (s : Str) : List UInt8 := s.flatMap cbCpBytes

/-! ## Read -/

/-- One codepoint, and where the next one starts. -/
structure CbCp where
  cp : Nat
  next : Nat

/-- The codepoint begun at `i`, completed from its continuation bytes. -/
def cbCpCont (bs : List UInt8) (i extra k cp : Nat) (what : Str) : Read CbCp :=
  if k ≥ extra then .ok ⟨cp, i + 1 + extra⟩
  else do
    let b ← .checked bs[i + 1 + k]?
    if b.toNat < 128 ∨ b.toNat > 191 then .err (syntaxError ("invalid UTF-8 in ".toList ++ what))
    else cbCpCont bs i extra (k + 1) (cp <<< 6 ||| (b.toNat &&& 63)) what
termination_by extra - k

/-- The codepoint at `i`. -/
def cbCpAt (bs : List UInt8) (i : Nat) (what : Str) : Read CbCp :=
  if i ≥ bs.length then .err (eofError what)
  else do
    let b ← .checked bs[i]?
    let b0 := b.toNat
    if b0 < 128 then .ok ⟨b0, i + 1⟩
    else if b0 < 192 then
      .err (syntaxError
        ("invalid UTF-8 in ".toList ++ what ++ ": a continuation byte starts it".toList))
    else
      let extra := if b0 < 224 then 1 else if b0 < 240 then 2 else 3
      if i + extra ≥ bs.length then .err (eofError what)
      else
        let head := if extra = 1 then b0 - 192 else if extra = 2 then b0 - 224 else b0 - 240
        cbCpCont bs i extra 0 head what

variable {bs rest : List UInt8} {cp extra i k n p stop : Nat} {s what : Str} {c : CbCp}

theorem cbCpCont_next (h : cbCpCont bs i extra k cp what = .ok c) : c.next = i + 1 + extra := by
  induction hn : extra - k generalizing k cp with
  | zero =>
    rw [cbCpCont, if_pos (by omega), Outcome.ok.injEq] at h
    rw [← h]
  | succ n ih =>
    rw [cbCpCont, if_neg (by omega)] at h
    obtain ⟨b, -, h⟩ := Outcome.bind_ok.1 h
    split_ifs at h
    exact ih h (by omega)

theorem lt_next_cbCpAt (h : cbCpAt bs i what = .ok c) : i < c.next := by
  unfold cbCpAt at h
  split_ifs at h
  obtain ⟨b, -, h⟩ := Outcome.bind_ok.1 h
  simp only at h
  split_ifs at h with hone
  · rw [Outcome.ok.injEq] at h
    rw [← h]
    exact Nat.lt_succ_self i
  all_goals
    rw [cbCpCont_next h]
    omega

/-- The bytes from `i` to `stop` as a text, after what is in the builder. -/
def cbStrAtBuf (bs : List UInt8) (i stop : Nat) (b : StrBuf) (what : Str) : Read Str :=
  if i ≥ stop then .ok (finishText b)
  else
    match _h : cbCpAt bs i what with
    | .err e => .err e
    | .trap => .trap
    | .ok c => cbStrAtBuf bs c.next stop (pushChar b c.cp) what
termination_by stop - i
decreasing_by
  have hlt := lt_next_cbCpAt _h
  omega

def cbStrAt (bs : List UInt8) (i stop : Nat) (what : Str) : Read Str := cbStrAtBuf bs i stop [] what

/-! ## A codepoint read back -/

theorem low_six (n : Nat) : n &&& 63 = n % 64 := Nat.and_two_pow_sub_one_eq_mod n 6

theorem shift_six {b : Nat} (h : b < 64) : cp <<< 6 ||| b = cp * 64 + b := by
  rw [← Nat.shiftLeft_add_eq_or_of_lt (show b < 2 ^ 6 from h), Nat.shiftLeft_eq]

/-- One continuation byte more. -/
theorem cbCpCont_step {x : Nat} (what : Str) (hk : k < extra)
    (h : bs[i + 1 + k]? = some (UInt8.ofNat (128 + (x &&& 63)))) :
    cbCpCont bs i extra k cp what = cbCpCont bs i extra (k + 1) (cp * 64 + x % 64) what := by
  have hnat : (UInt8.ofNat (128 + (x &&& 63))).toNat = 128 + x % 64 := by
    rw [UInt8.toNat_ofNat', low_six]
    omega
  have hlow : 128 + x % 64 &&& 63 = x % 64 := by
    rw [low_six]
    omega
  have hmod : x % 64 < 64 := Nat.mod_lt x (by decide)
  rw [cbCpCont, if_neg (by omega), h, Outcome.checked_some, Outcome.ok_bind, hnat,
    if_neg (by omega), hlow, shift_six hmod]

theorem cbCpCont_end (bs : List UInt8) (i extra cp : Nat) (what : Str) :
    cbCpCont bs i extra extra cp what = .ok ⟨cp, i + 1 + extra⟩ := by
  rw [cbCpCont, if_pos (Nat.le_refl extra)]

theorem getElem?_of_drop {pre : List UInt8} (h : bs.drop i = pre ++ rest) (hk : k < pre.length) :
    bs[i + k]? = pre[k]? := by
  rw [← List.getElem?_drop, h, List.getElem?_append_left hk]

theorem length_of_drop {pre : List UInt8} (h : bs.drop i = pre ++ rest) (hpre : pre ≠ []) :
    i + pre.length ≤ bs.length := by
  have hlen := congrArg List.length h
  have hpos := List.length_pos_iff.2 hpre
  rw [List.length_drop, List.length_append] at hlen
  omega

/-- A lead byte and the continuation bytes it asks for. -/
theorem cbCpAt_lead {lead : Nat} {more : List UInt8} (extra : Nat) (what : Str)
    (h : bs.drop i = (UInt8.ofNat lead :: more) ++ rest) (hlen : more.length = extra)
    (hlead : extra = 1 ∧ 192 ≤ lead ∧ lead < 224 ∨ extra = 2 ∧ 224 ≤ lead ∧ lead < 240 ∨
      extra = 3 ∧ 240 ≤ lead ∧ lead < 256) :
    cbCpAt bs i what = cbCpCont bs i extra 0
      (if extra = 1 then lead - 192 else if extra = 2 then lead - 224 else lead - 240) what := by
  have hroom := length_of_drop h (List.cons_ne_nil _ _)
  rw [List.length_cons, hlen] at hroom
  have hget : bs[i]? = some (UInt8.ofNat lead) := getElem?_of_drop (k := 0) h (by simp)
  have hnat : (UInt8.ofNat lead).toNat = lead := by
    rw [UInt8.toNat_ofNat']
    omega
  have hextra : (if lead < 224 then 1 else if lead < 240 then 2 else 3) = extra := by
    split_ifs <;> omega
  rw [cbCpAt, if_neg (by omega), hget, Outcome.checked_some, Outcome.ok_bind, hnat]
  simp only [if_neg (show ¬ lead < 128 by omega), if_neg (show ¬ lead < 192 by omega), hextra,
    if_neg (show ¬ i + extra ≥ bs.length by omega)]

theorem cbCpAt_bytes (c : Char) (what : Str) (h : bs.drop i = cbCpBytes c ++ rest) :
    cbCpAt bs i what = .ok ⟨c.toNat, i + (cbCpBytes c).length⟩ := by
  have hc := toNat_lt c
  unfold cbCpBytes utf8Width at h ⊢
  simp only at h ⊢
  by_cases h1 : c.toNat < 128
  · simp only [if_pos h1, if_true] at h ⊢
    have hget : bs[i]? = some (UInt8.ofNat c.toNat) := getElem?_of_drop (k := 0) h (by simp)
    have hroom := length_of_drop h (List.cons_ne_nil _ _)
    have hnat : (UInt8.ofNat c.toNat).toNat = c.toNat := by
      rw [UInt8.toNat_ofNat']
      omega
    rw [List.length_singleton] at hroom
    rw [cbCpAt, if_neg (by omega), hget, Outcome.checked_some, Outcome.ok_bind, hnat]
    simp only [if_pos h1, List.length_singleton]
  by_cases h2 : c.toNat < 2048
  · have hshift : c.toNat >>> 6 = c.toNat / 64 := Nat.shiftRight_eq_div_pow _ 6
    simp only [if_neg h1, if_pos h2, if_neg (show ¬ 2 = 1 by decide), if_true, hshift] at h ⊢
    rw [cbCpAt_lead 1 what h rfl (Or.inl ⟨rfl, by omega, by omega⟩), if_pos rfl,
      cbCpCont_step what (by decide) (getElem?_of_drop (k := 1) h (by simp)), cbCpCont_end]
    congr 2
    omega
  by_cases h3 : c.toNat < 65536
  · have hshift : c.toNat >>> 12 = c.toNat / 4096 := Nat.shiftRight_eq_div_pow _ 12
    have hshift' : c.toNat >>> 6 = c.toNat / 64 := Nat.shiftRight_eq_div_pow _ 6
    simp only [if_neg h1, if_neg h2, if_pos h3, if_neg (show ¬ 3 = 1 by decide),
      if_neg (show ¬ 3 = 2 by decide), if_true, hshift] at h ⊢
    rw [cbCpAt_lead 2 what h rfl (Or.inr (Or.inl ⟨rfl, by omega, by omega⟩)), if_neg (by decide),
      if_pos rfl, cbCpCont_step what (by decide) (getElem?_of_drop (k := 1) h (by simp)),
      cbCpCont_step what (by decide) (getElem?_of_drop (k := 2) h (by simp)), cbCpCont_end]
    congr 2
    omega
  · have hshift : c.toNat >>> 18 = c.toNat / 262144 := Nat.shiftRight_eq_div_pow _ 18
    have hshift' : c.toNat >>> 12 = c.toNat / 4096 := Nat.shiftRight_eq_div_pow _ 12
    have hshift'' : c.toNat >>> 6 = c.toNat / 64 := Nat.shiftRight_eq_div_pow _ 6
    simp only [if_neg h1, if_neg h2, if_neg h3, if_neg (show ¬ 4 = 1 by decide),
      if_neg (show ¬ 4 = 2 by decide), if_neg (show ¬ 4 = 3 by decide), hshift] at h ⊢
    rw [cbCpAt_lead 3 what h rfl (Or.inr (Or.inr ⟨rfl, by omega, by omega⟩)), if_neg (by decide),
      if_neg (by decide), cbCpCont_step what (by decide) (getElem?_of_drop (k := 1) h (by simp)),
      cbCpCont_step what (by decide) (getElem?_of_drop (k := 2) h (by simp)),
      cbCpCont_step what (by decide) (getElem?_of_drop (k := 3) h (by simp)), cbCpCont_end]
    congr 2
    omega

/-! ## A text read back -/

theorem cbCpBytes_ne_nil (c : Char) : cbCpBytes c ≠ [] := by
  unfold cbCpBytes
  simp only
  split_ifs <;> exact List.cons_ne_nil _ _

theorem cbStrAtBuf_bytes (b : StrBuf) (what : Str) (h : bs.drop i = cbStrBytes s ++ rest) :
    cbStrAtBuf bs i (i + (cbStrBytes s).length) b what = .ok (finishText (b ++ s)) := by
  induction s generalizing i b with
  | nil =>
    have hlen : (cbStrBytes []).length = 0 := rfl
    rw [hlen, Nat.add_zero, cbStrAtBuf, if_pos (Nat.le_refl i), List.append_nil]
  | cons c s ih =>
    have hcons : cbStrBytes (c :: s) = cbCpBytes c ++ cbStrBytes s := List.flatMap_cons
    rw [hcons, List.append_assoc] at h
    have hpos := List.length_pos_iff.2 (cbCpBytes_ne_nil c)
    have hone := cbCpAt_bytes c what h
    have hdrop : bs.drop (i + (cbCpBytes c).length) = cbStrBytes s ++ rest := by
      rw [← List.drop_drop, h, List.drop_left]
    have hchar : codeChar c.toNat = c := codeChar_charCode c
    rw [cbStrAtBuf, hcons, List.length_append, if_neg (by omega), hone]
    simp only [pushChar, hchar]
    rw [← Nat.add_assoc, ih (b ++ [c]) hdrop, List.append_assoc]
    rfl

/-- The bytes of a text are read back as the text. -/
theorem cbStrAt_bytes (what : Str) (hs : ∀ c ∈ s, c ≠ Char.ofNat 0)
    (h : bs.drop i = cbStrBytes s ++ rest) :
    cbStrAt bs i (i + (cbStrBytes s).length) what = .ok s := by
  rw [cbStrAt, cbStrAtBuf_bytes [] what h, List.nil_append, finishText_of_noNul hs]

/-!
## What the text decoder accepts

A lead byte takes as many continuation bytes as it announces, wherever the range ends and whatever
they add up to.  The decoder is strict, and stays inside its range, just on the ranges where no unit
it takes runs past the end and where complete units are the encoding of a text.

    cbCpAt bs i what = ok c ↔ TakenAt bs i (c.next - i)             (cbCpAt_ok, cbCpAt_taken)
    ¬Overruns bs i stop → the codepoint at i is told by the bytes before stop    (cbCpAt_congr)
    Strict bs i stop what ↔ no unit reached overruns, and units that fill the range are a text
                                                                           (cbStrAt_strict_iff)
-/

/-! ## Units -/

/-- The continuation bytes a lead byte asks for. -/
def leadExtra (b : UInt8) : Nat := if b.toNat < 224 then 1 else if b.toNat < 240 then 2 else 3

def IsCont (b : UInt8) : Prop := 128 ≤ b.toNat ∧ b.toNat ≤ 191

instance (b : UInt8) : Decidable (IsCont b) := inferInstanceAs (Decidable (_ ∧ _))

/-- The decoder takes `n` bytes at `i`: one below 128, or a lead byte with its continuation bytes. -/
def TakenAt (bs : List UInt8) (i n : Nat) : Prop :=
  ∃ b, bs[i]? = some b ∧ (b.toNat < 128 ∧ n = 1 ∨
    192 ≤ b.toNat ∧ n = 1 + leadExtra b ∧
      ∀ k, k < leadExtra b → ∃ c, bs[i + 1 + k]? = some c ∧ IsCont c)

/-- A lead byte before `stop` whose continuation bytes reach past it, and are there. -/
def Overruns (bs : List UInt8) (i stop : Nat) : Prop :=
  i < stop ∧ ∃ b, bs[i]? = some b ∧ 192 ≤ b.toNat ∧ stop < i + 1 + leadExtra b ∧
    i + leadExtra b < bs.length ∧ ∀ j, i < j → j < stop → ∃ c, bs[j]? = some c ∧ IsCont c

/-- The positions that units inside `[i, stop)` lead to. -/
inductive Reached (bs : List UInt8) (i stop : Nat) : Nat → Prop
  | start : Reached bs i stop i
  | step {p n : Nat} (hp : Reached bs i stop p) (hn : TakenAt bs p n) (hle : p + n ≤ stop) :
      Reached bs i stop (p + n)

theorem TakenAt.pos (h : TakenAt bs i n) : 0 < n := by
  obtain ⟨b, -, ⟨-, rfl⟩ | ⟨-, rfl, -⟩⟩ := h
  · exact Nat.one_pos
  · omega

/-- A unit that ends past `stop` overruns. -/
theorem TakenAt.overruns (h : TakenAt bs i n) (hi : i < stop) (hn : stop < i + n) :
    Overruns bs i stop := by
  obtain ⟨b, hb, ⟨-, rfl⟩ | ⟨hlead, rfl, hmore⟩⟩ := h
  · omega
  have hextra : 1 ≤ leadExtra b := by
    unfold leadExtra
    split_ifs
    all_goals omega
  refine ⟨hi, b, hb, hlead, by omega, ?_, ?_⟩
  · obtain ⟨c, hc, -⟩ := hmore (leadExtra b - 1) (by omega)
    have := (List.getElem?_eq_some_iff.1 hc).1
    omega
  · intro j hj hjs
    obtain ⟨c, hc, hcont⟩ := hmore (j - i - 1) (by omega)
    have hidx : i + 1 + (j - i - 1) = j := by omega
    rw [hidx] at hc
    exact ⟨c, hc, hcont⟩

/-! ## One codepoint -/

theorem cbCpCont_ok (h : cbCpCont bs i extra k cp what = .ok c) :
    ∀ j, k ≤ j → j < extra → ∃ b, bs[i + 1 + j]? = some b ∧ IsCont b := by
  induction hn : extra - k generalizing k cp with
  | zero =>
    intro j hj hje
    omega
  | succ n ih =>
    rw [cbCpCont, if_neg (by omega)] at h
    obtain ⟨b, hb, h⟩ := Outcome.bind_ok.1 h
    have hget := Outcome.checked_ok.1 hb
    split_ifs at h with hbad
    intro j hj hje
    by_cases heq : j = k
    · subst heq
      exact ⟨b, hget, by unfold IsCont; omega⟩
    · exact ih h (by omega) j (by omega) hje

theorem cbCpCont_of_cont (what : Str)
    (h : ∀ j, k ≤ j → j < extra → ∃ b, bs[i + 1 + j]? = some b ∧ IsCont b) :
    ∃ v, cbCpCont bs i extra k cp what = .ok ⟨v, i + 1 + extra⟩ := by
  induction hn : extra - k generalizing k cp with
  | zero =>
    rw [cbCpCont, if_pos (by omega)]
    exact ⟨cp, rfl⟩
  | succ n ih =>
    obtain ⟨b, hb, hcont⟩ := h k le_rfl (by omega)
    unfold IsCont at hcont
    rw [cbCpCont, if_neg (by omega), hb, Outcome.checked_some, Outcome.ok_bind, if_neg (by omega)]
    exact ih (fun j hj hje => h j (by omega) hje) (by omega)

/-- The bytes up to `m` tell the codepoint when one of them is no continuation byte, or when they
are all it has. -/
theorem cbCpCont_congr {bs' : List UInt8} {m : Nat}
    (heq : ∀ j, k ≤ j → j < m → bs'[i + 1 + j]? = bs[i + 1 + j]?)
    (hm : extra ≤ m ∨ ∃ j b, k ≤ j ∧ j < m ∧ j < extra ∧ bs[i + 1 + j]? = some b ∧ ¬IsCont b) :
    cbCpCont bs' i extra k cp what = cbCpCont bs i extra k cp what := by
  induction hn : extra - k generalizing k cp with
  | zero => rw [cbCpCont, if_pos (by omega), cbCpCont, if_pos (by omega)]
  | succ n ih =>
    have hkm : k < m := by
      rcases hm with hm | ⟨j, b, hj, hjm, -⟩
      · omega
      · omega
    rw [cbCpCont, if_neg (by omega), cbCpCont.eq_def bs, if_neg (by omega), heq k le_rfl hkm]
    cases hget : bs[i + 1 + k]? with
    | none => rfl
    | some b =>
      rw [Outcome.checked_some, Outcome.ok_bind, Outcome.ok_bind]
      by_cases hbad : b.toNat < 128 ∨ b.toNat > 191
      · rw [if_pos hbad, if_pos hbad]
      rw [if_neg hbad, if_neg hbad]
      refine ih (fun j hj hjm => heq j (by omega) hjm) ?_ (by omega)
      rcases hm with hm | ⟨j, b', hj, hjm, hje, hb', hcont⟩
      · exact Or.inl hm
      · refine Or.inr ⟨j, b', ?_, hjm, hje, hb', hcont⟩
        by_contra hlt
        have hjk : j = k := by omega
        subst hjk
        rw [hget] at hb'
        cases hb'
        exact hcont (by unfold IsCont; omega)

/-- The lead byte's own bits. -/
def leadBits (b : UInt8) : Nat :=
  if leadExtra b = 1 then b.toNat - 192
  else if leadExtra b = 2 then b.toNat - 224 else b.toNat - 240

/-- The codepoint behind a byte, by cases on the byte. -/
theorem cbCpAt_eq {b : UInt8} (hb : bs[i]? = some b) : cbCpAt bs i what =
      if b.toNat < 128 then .ok ⟨b.toNat, i + 1⟩
      else if b.toNat < 192 then
        .err (syntaxError
          ("invalid UTF-8 in ".toList ++ what ++ ": a continuation byte starts it".toList))
      else if i + leadExtra b ≥ bs.length then .err (eofError what)
      else cbCpCont bs i (leadExtra b) 0 (leadBits b) what := by
  have hlt := (List.getElem?_eq_some_iff.1 hb).1
  rw [cbCpAt, if_neg (by omega), hb, Outcome.checked_some, Outcome.ok_bind]
  rfl

theorem cbCpAt_ok (h : cbCpAt bs i what = .ok c) : ∃ n, c.next = i + n ∧ TakenAt bs i n := by
  cases hb : bs[i]? with
  | none =>
    have hlen := List.getElem?_eq_none_iff.1 hb
    rw [cbCpAt, if_pos (by omega)] at h
    cases h
  | some b =>
    rw [cbCpAt_eq hb] at h
    split_ifs at h with h1 h2 h3
    · rw [Outcome.ok.injEq] at h
      exact ⟨1, by rw [← h], b, hb, Or.inl ⟨h1, rfl⟩⟩
    · refine ⟨1 + leadExtra b, ?_, b, hb, Or.inr ⟨by omega, rfl, fun k hk => ?_⟩⟩
      · rw [cbCpCont_next h]
        omega
      · exact cbCpCont_ok h k (Nat.zero_le k) hk

theorem cbCpAt_taken (h : TakenAt bs i n) (what : Str) :
    ∃ v, cbCpAt bs i what = .ok ⟨v, i + n⟩ := by
  obtain ⟨b, hb, ⟨hone, rfl⟩ | ⟨hlead, rfl, hmore⟩⟩ := h
  · rw [cbCpAt_eq hb, if_pos hone]
    exact ⟨_, rfl⟩
  · have hextra : 1 ≤ leadExtra b := by
      unfold leadExtra
      split_ifs
      all_goals omega
    obtain ⟨c, hc, -⟩ := hmore (leadExtra b - 1) (by omega)
    have hroom := (List.getElem?_eq_some_iff.1 hc).1
    rw [cbCpAt_eq hb, if_neg (by omega), if_neg (by omega), if_neg (by omega), ← Nat.add_assoc]
    exact cbCpCont_of_cont what fun j _ hj => hmore j hj

/-- A unit that does not overrun is told by the bytes before `stop`. -/
theorem cbCpAt_congr {bs bs' : List UInt8} {i stop : Nat} {what : Str}
    (hlen : bs'.length = bs.length) (hi : i < stop) (hover : ¬Overruns bs i stop)
    (heq : ∀ j, i ≤ j → j < stop → bs'[j]? = bs[j]?) :
    cbCpAt bs' i what = cbCpAt bs i what := by
  have hfirst := heq i le_rfl hi
  cases hb : bs[i]? with
  | none =>
    have hend := List.getElem?_eq_none_iff.1 hb
    rw [cbCpAt, if_pos (by omega), cbCpAt, if_pos (by omega)]
  | some b =>
    rw [hb] at hfirst
    rw [cbCpAt_eq hfirst, cbCpAt_eq hb, hlen]
    by_cases h1 : b.toNat < 128
    · rw [if_pos h1, if_pos h1]
    rw [if_neg h1, if_neg h1]
    by_cases h2 : b.toNat < 192
    · rw [if_pos h2, if_pos h2]
    rw [if_neg h2, if_neg h2]
    by_cases h3 : i + leadExtra b ≥ bs.length
    · rw [if_pos h3, if_pos h3]
    rw [if_neg h3, if_neg h3]
    refine cbCpCont_congr (m := stop - i - 1) (fun j _ hj => heq _ (by omega) (by omega)) ?_
    by_contra hno
    rw [not_or, not_le] at hno
    refine hover ⟨hi, b, hb, by omega, by omega, by omega, fun j hj hjs => ?_⟩
    obtain ⟨c, hget⟩ : ∃ c, bs[j]? = some c := ⟨_, List.getElem?_eq_getElem (by omega)⟩
    by_contra hbad
    refine hno.2 ⟨j - i - 1, _, Nat.zero_le _, by omega, by omega, ?_, fun hcont => hbad ⟨_, hget, hcont⟩⟩
    rw [show i + 1 + (j - i - 1) = j by omega]
    exact hget

/-! ## A text -/

theorem cbStrAtBuf_done (h : stop ≤ i) (b : StrBuf) (what : Str) :
    cbStrAtBuf bs i stop b what = .ok (finishText b) := by
  rw [cbStrAtBuf, if_pos h]

theorem cbStrAtBuf_step {b : StrBuf} (h : i < stop) (hc : cbCpAt bs i what = .ok c) :
    cbStrAtBuf bs i stop b what = cbStrAtBuf bs c.next stop (pushChar b c.cp) what := by
  rw [cbStrAtBuf, if_neg (by omega)]
  split
  · rename_i he
    rw [hc] at he
    cases he
  · rename_i ht
    rw [hc] at ht
    cases ht
  · rename_i c' hc'
    rw [hc] at hc'
    cases hc'
    rfl

theorem cbStrAtBuf_ok {b : StrBuf} (h : i < stop) (hs : cbStrAtBuf bs i stop b what = .ok s) :
    ∃ c, cbCpAt bs i what = .ok c := by
  rw [cbStrAtBuf, if_neg (by omega)] at hs
  split at hs
  · cases hs
  · cases hs
  · exact ⟨_, ‹_›⟩

theorem Reached.le (h : Reached bs i stop p) : i ≤ p := by
  induction h with
  | start => exact le_rfl
  | step hp hn hle ih => exact ih.trans (Nat.le_add_right _ _)

/-- The units up to a position that is reached add the same text in every list that holds the same
bytes there. -/
theorem Reached.run (h : Reached bs i stop p) (what : Str) :
    ∃ s : Str, ∀ bs', bs'.length = bs.length → (∀ j, i ≤ j → j < stop → bs'[j]? = bs[j]?) →
      cbStrAtBuf bs' i stop [] what = cbStrAtBuf bs' p stop s what := by
  induction h with
  | start => exact ⟨[], fun _ _ _ => rfl⟩
  | @step p n hp hn hle ih =>
    obtain ⟨s, hs⟩ := ih
    obtain ⟨v, hv⟩ := cbCpAt_taken hn what
    have hpos := hn.pos
    have hip := hp.le
    refine ⟨pushChar s v, fun bs' hlen heq => ?_⟩
    have hover : ¬Overruns bs p (p + n) := by
      rintro ⟨-, b, hb, hlead, hpast, -⟩
      obtain ⟨b', hb', ⟨hone, -⟩ | ⟨-, hn', -⟩⟩ := hn
      · rw [hb] at hb'
        cases hb'
        omega
      · rw [hb] at hb'
        cases hb'
        omega
    have hsame := @cbCpAt_congr bs bs' p (p + n) what hlen (by omega) hover fun j hj hjn =>
      heq j (by omega) (by omega)
    rw [hs bs' hlen heq, cbStrAtBuf_step (by omega) (hsame.trans hv)]

/-- The decoder's answer, when it comes, is the text of the range, and no byte outside the range has
a part in it. -/
structure Strict (bs : List UInt8) (i stop : Nat) (what : Str) : Prop where
  same : ∀ s, cbStrAt bs i stop what = .ok s → cbStrBytes s = (bs.drop i).take (stop - i)
  inside : ∀ bs', bs'.length = bs.length → (∀ j, i ≤ j → j < stop → bs'[j]? = bs[j]?) →
    cbStrAt bs' i stop what = cbStrAt bs i stop what

/-- A unit that overruns is completed or broken by the bytes behind the range. -/
theorem not_inside_of_overruns (hstop : stop ≤ bs.length) (hp : Reached bs i stop p)
    (hover : Overruns bs p stop) (h : Strict bs i stop what) : False := by
  obtain ⟨hps, b, hb, hlead, hpast, hroom, hmore⟩ := hover
  obtain ⟨s, hs⟩ := hp.run what
  have hfill (x : UInt8) : ∃ bs' : List UInt8, bs'.length = bs.length ∧
      (∀ j, j < stop → bs'[j]? = bs[j]?) ∧ ∀ j, stop ≤ j → j < bs.length → bs'[j]? = some x := by
    refine ⟨bs.take stop ++ List.replicate (bs.length - stop) x, ?_, ?_, ?_⟩
    · rw [List.length_append, List.length_take, List.length_replicate]
      omega
    · intro j hj
      rw [List.getElem?_append_left (by rw [List.length_take]; omega), List.getElem?_take_of_lt hj]
    · intro j hj hjl
      rw [List.getElem?_append_right (by rw [List.length_take]; omega), List.length_take,
        List.getElem?_replicate, if_pos (by omega)]
  -- completed by continuation bytes
  obtain ⟨good, hglen, hgin, hgout⟩ := hfill 128
  have htaken : TakenAt good p (1 + leadExtra b) := by
    refine ⟨b, (hgin p hps).trans hb, Or.inr ⟨hlead, rfl, fun k hk => ?_⟩⟩
    by_cases hin : p + 1 + k < stop
    · obtain ⟨c, hc, hcont⟩ := hmore (p + 1 + k) (by omega) hin
      exact ⟨c, (hgin _ hin).trans hc, hcont⟩
    · exact ⟨128, hgout _ (by omega) (by omega), by decide⟩
  obtain ⟨v, hv⟩ := cbCpAt_taken htaken what
  have hgood : cbStrAt good i stop what = .ok (finishText (pushChar s v)) := by
    rw [cbStrAt, hs good hglen fun j _ hj => hgin j hj, cbStrAtBuf_step hps hv]
    exact cbStrAtBuf_done (show stop ≤ p + (1 + leadExtra b) by omega) _ _
  -- broken by a zero
  obtain ⟨bad, hblen, hbin, hbout⟩ := hfill 0
  have hbad : cbStrAt bad i stop what = .ok (finishText (pushChar s v)) :=
    (h.inside bad hblen fun j _ hj => hbin j hj).trans
      ((h.inside good hglen fun j _ hj => hgin j hj).symm.trans hgood)
  rw [cbStrAt, hs bad hblen fun j _ hj => hbin j hj] at hbad
  obtain ⟨c, hc⟩ := cbStrAtBuf_ok hps hbad
  obtain ⟨n, -, b', hb', ⟨hone, -⟩ | ⟨-, -, hconts⟩⟩ := cbCpAt_ok hc
  · rw [hbin p hps, hb] at hb'
    cases hb'
    omega
  · rw [hbin p hps, hb] at hb'
    cases hb'
    obtain ⟨z, hz, hcont⟩ := hconts (stop - p - 1) (by omega)
    rw [show p + 1 + (stop - p - 1) = stop by omega, hbout stop le_rfl (by omega)] at hz
    cases hz
    exact absurd hcont (by decide)

/-- From a position that is reached, with no overrun ahead: the answer is told by the range, and
comes only when complete units fill it. -/
theorem cbStrAtBuf_inside {bs : List UInt8} {i stop p : Nat} {what : Str} (hp : Reached bs i stop p)
    (hle : p ≤ stop) (hover : ∀ q, Reached bs i stop q → ¬Overruns bs q stop) (b : StrBuf) :
    (∀ s, cbStrAtBuf bs p stop b what = .ok s → Reached bs i stop stop) ∧
    ∀ bs', bs'.length = bs.length → (∀ j, i ≤ j → j < stop → bs'[j]? = bs[j]?) →
      cbStrAtBuf bs' p stop b what = cbStrAtBuf bs p stop b what := by
  induction hn : stop - p using Nat.strong_induction_on generalizing p b with
  | _ n ih =>
  by_cases hdone : stop ≤ p
  · have hpe : p = stop := by omega
    subst hpe
    refine ⟨fun s _ => hp, fun bs' _ _ => ?_⟩
    rw [cbStrAtBuf_done hdone, cbStrAtBuf_done hdone]
  have hps : p < stop := by omega
  have hsame (bs' : List UInt8) (hlen : bs'.length = bs.length)
      (heq : ∀ j, i ≤ j → j < stop → bs'[j]? = bs[j]?) : cbCpAt bs' p what = cbCpAt bs p what :=
    cbCpAt_congr hlen hps (hover p hp) fun j hj hjs => heq j (hp.le.trans hj) hjs
  cases hc : cbCpAt bs p what with
  | ok c =>
    obtain ⟨m, hnext, htaken⟩ := cbCpAt_ok hc
    have hpos := htaken.pos
    have hms : p + m ≤ stop := by
      by_contra hgt
      exact hover p hp (htaken.overruns hps (by omega))
    obtain ⟨hfill, hrest⟩ := ih (stop - (p + m)) (by omega) (.step hp htaken hms) hms
      (pushChar b c.cp) rfl
    rw [← hnext] at hfill hrest
    refine ⟨fun s hs => ?_, fun bs' hlen heq => ?_⟩
    · rw [cbStrAtBuf_step hps hc] at hs
      exact hfill s hs
    · rw [cbStrAtBuf_step hps hc, cbStrAtBuf_step hps ((hsame bs' hlen heq).trans hc)]
      exact hrest bs' hlen heq
  | err e =>
    refine ⟨fun s hs => ?_, fun bs' hlen heq => ?_⟩
    · obtain ⟨c, hok⟩ := cbStrAtBuf_ok hps hs
      rw [hc] at hok
      cases hok
    · have hc' := (hsame bs' hlen heq).trans hc
      rw [cbStrAtBuf, cbStrAtBuf.eq_def bs, if_neg (by omega), if_neg (by omega)]
      split <;> split <;> simp_all
  | trap =>
    refine ⟨fun s hs => ?_, fun bs' hlen heq => ?_⟩
    · obtain ⟨c, hok⟩ := cbStrAtBuf_ok hps hs
      rw [hc] at hok
      cases hok
    · have hc' := (hsame bs' hlen heq).trans hc
      rw [cbStrAtBuf, cbStrAtBuf.eq_def bs, if_neg (by omega), if_neg (by omega)]
      split <;> split <;> simp_all

/-- A range is decoded strictly just when no unit that is reached asks for bytes behind it that the
list does hold, and units that fill it are the encoding of a text with no NUL. -/
theorem cbStrAt_strict_iff {bs : List UInt8} {i stop : Nat} (hi : i ≤ stop)
    (hstop : stop ≤ bs.length) (what : Str) :
    Strict bs i stop what ↔ (∀ p, Reached bs i stop p → ¬Overruns bs p stop) ∧
      (Reached bs i stop stop →
        ∃ s, (∀ c ∈ s, c ≠ Char.ofNat 0) ∧ (bs.drop i).take (stop - i) = cbStrBytes s) := by
  constructor
  · intro h
    refine ⟨fun p hp hover => not_inside_of_overruns hstop hp hover h, fun hfull => ?_⟩
    obtain ⟨s, hs⟩ := hfull.run what
    have hok : cbStrAt bs i stop what = .ok (finishText s) := by
      rw [cbStrAt, hs bs rfl fun _ _ _ => rfl]
      exact cbStrAtBuf_done le_rfl _ _
    refine ⟨finishText s, fun c hc => ?_, (h.same _ hok).symm⟩
    simpa using List.mem_takeWhile_imp hc
  · rintro ⟨hover, htext⟩
    obtain ⟨hfill, hrest⟩ := @cbStrAtBuf_inside bs i stop i what .start hi hover []
    refine ⟨fun s hs => ?_, hrest⟩
    obtain ⟨t, hnul, ht⟩ := htext (hfill s hs)
    have hdrop : bs.drop i = cbStrBytes t ++ bs.drop stop := by
      rw [← ht]
      have hsplit := (List.take_append_drop (stop - i) (bs.drop i)).symm
      rwa [List.drop_drop, show i + (stop - i) = stop by omega] at hsplit
    have hlen : i + (cbStrBytes t).length = stop := by
      rw [← ht, List.length_take, List.length_drop]
      omega
    have hback := cbStrAt_bytes what hnul hdrop
    rw [hlen, hs] at hback
    rw [Outcome.ok.inj hback, ht]

/-- The two bytes of "é" are decoded strictly. -/
theorem cbStrAt_strict_accent : Strict [195, 169] 0 2 [] := by
  refine (cbStrAt_strict_iff (by decide) (by decide) []).2 ⟨?_, fun _ => ?_⟩
  · rintro p hp ⟨hps, b, hb, -, hpast, hroom, -⟩
    have hp2 : p = 0 ∨ p = 1 := by omega
    rcases hp2 with rfl | rfl
    · cases hb
      exact absurd hpast (by decide)
    · cases hb
      exact absurd hroom (by decide)
  · refine ⟨[Char.ofNat 233], fun c hc => ?_, by decide⟩
    rw [List.mem_singleton.1 hc]
    decide

/-- An overlong form comes back as a text of one byte; a lead byte at the end of the range as the
character that the bytes behind it complete. -/
theorem overlong_accepted : cbStrAt [193, 129] 0 2 [] = .ok ['A'] ∧ cbStrBytes ['A'] = [65] ∧
    ¬Strict [193, 129] 0 2 [] ∧ cbStrAt [226, 130, 172] 0 1 [] = .ok [Char.ofNat 8364] := by
  have hread : cbStrAt [193, 129] 0 2 [] = .ok ['A'] ∧
      cbStrAt [226, 130, 172] 0 1 [] = .ok [Char.ofNat 8364] := by
    decide +kernel
  refine ⟨hread.1, by decide, fun h => ?_, hread.2⟩
  have := h.same _ hread.1
  exact absurd this (by decide)

end Cbor
