import Resid.Cbor.WellFormed

/-!
# Skipping a value

The decoder skips a value of any type by its heads.  A float and a two-byte simple value have
bytes after the first that are no argument: the skip stops before them, where the bounded walk
of `cborWfItem` passes over them.

    Item PlainHead depth c → cdSkip (c here) = ok (past c)           (cdSkipAt_item)
    the two agree on bs ↔ no float or two-byte simple value in bs    (skip_agrees_iff)
-/

namespace Cbor

open Runtime Serial CheckedInt ByteOrder

/-! ## Algorithm -/

/-- The state past one chunk. -/
def cdSkipChunk (d : CborDec) (mt : Nat) : Read CborDec := do
  let h ← cdReadHead d "a chunk".toList
  if h.value.mt ≠ mt ∨ h.value.ai = 31 then
    .err (invalidType "a string chunk".toList (cbHeadName h.value))
  else do
    let len ← cbFitArg h.value.arg h.rest
    if len < 0 then .err (eofError "a chunk".toList) else .ok (cdTake h.rest len.toNat)

theorem cdSkipChunk_ok {d r : CborDec} {mt : Nat} (hok : cdSkipChunk d mt = .ok r) :
    r.input = d.input ∧ d.pos < r.pos ∧ d.pos < d.input.val.length := by
  obtain ⟨h, hread, hok⟩ := Outcome.bind_ok.1 hok
  obtain ⟨hin, hpos, hlt⟩ := cdReadHead_ok hread
  split_ifs at hok
  obtain ⟨len, -, hok⟩ := Outcome.bind_ok.1 hok
  split_ifs at hok
  cases hok
  refine ⟨hin, ?_, hlt⟩
  rw [cdTake_pos]
  omega

/-- The chunks of an indefinite string, up to its break. -/
def cdSkipChunks (d : CborDec) (mt : Nat) : Read CborDec :=
  if cbAtBreak d then .ok (cdTake d 1)
  else
    match _hc : cdSkipChunk d mt with
    | .err e => .err e
    | .trap => .trap
    | .ok r => cdSkipChunks r mt
termination_by d.input.val.length - d.pos
decreasing_by
  obtain ⟨hin, hpos, hlt⟩ := cdSkipChunk_ok _hc
  rw [hin]
  omega

def partName (mt : Nat) : Str := (if mt = 5 then "a map entry" else "an array item").toList

/-- `n` items more. -/
def cdSkipItems (skip : CborDec → Str → Read CborDec) (mt : Nat) :
    (n : Nat) → CborDec → Read CborDec
  | 0, d => .ok d
  | n + 1, d => do
    let d1 ← skip d (partName mt)
    cdSkipItems skip mt n d1

/-- The items of an indefinite container, in at most `rounds` rounds. -/
def cdSkipOpen (skip : CborDec → Str → Read CborDec) (mt : Nat) :
    (rounds : Nat) → CborDec → Read CborDec
  | 0, _ => .trap
  | rounds + 1, d =>
    if cbAtBreak d then .ok (cdTake d 1)
    else do
      let d1 ← skip d (partName mt)
      cdSkipOpen skip mt rounds d1

/-- Every level takes a byte, so the input's length is fuel enough. -/
def cdSkipAt : (fuel : Nat) → CborDec → (what : Str) → Read CborDec
  | 0, _, _ => .trap
  | fuel + 1, d, what => do
    let h ← cdReadHead d what
    let head := h.value
    let d1 := h.rest
    if head.mt = 2 ∨ head.mt = 3 then
      if head.ai = 31 then cdSkipChunks d1 head.mt
      else do
        let len ← cbFitArg head.arg d1
        if len < 0 then .err (eofError what) else .ok (cdTake d1 len.toNat)
    else if head.mt = 4 ∨ head.mt = 5 then
      if head.ai = 31 then cdSkipOpen (cdSkipAt fuel) head.mt (d.input.val.length + 1) d1
      else do
        let items ← cbFitArg head.arg d1
        if items = -1 then .err (eofError what)
        else do
          let each := if head.mt = 5 then 2 else 1
          let n ← .checked (mul 64 items each)
          cdSkipItems (cdSkipAt fuel) head.mt n.toNat d1
    else if head.mt = 6 then cdSkipAt fuel d1 "a tagged value".toList
    else .ok d1

/-- Skip one value of any type. -/
def cdSkip (d : CborDec) : Read CborDec := cdSkipAt (d.input.val.length + 1) d "a value".toList

/-! ## Over an item without such a value -/

/-- No float and no simple value of two bytes. -/
def PlainHead : HeadOk := fun mt ai _ => mt = 7 → ai < 24

theorem cdSkipItems_parts {skip : CborDec → Str → Read CborDec} {mt : Nat}
    {parts : List (List UInt8)} {d : CborDec} {rest : List UInt8}
    (hd : d.input.val.drop d.pos = parts.flatten ++ rest)
    (hskip : ∀ c ∈ parts, ∀ (d : CborDec) rest, d.input.val.drop d.pos = c ++ rest →
      skip d (partName mt) = .ok (cdTake d c.length)) :
    cdSkipItems skip mt parts.length d = .ok (cdTake d parts.flatten.length) := by
  induction parts generalizing d with
  | nil => rfl
  | cons c cs ih =>
    rw [List.flatten_cons, List.append_assoc] at hd
    have hc := hskip c List.mem_cons_self d _ hd
    have hcs := ih (drop_cdTake hd) (fun c hc => hskip c (List.mem_cons_of_mem _ hc))
    rw [List.length_cons, cdSkipItems, hc, Outcome.ok_bind, hcs, cdTake_cdTake, List.flatten_cons,
      List.length_append]

/-- Parts are no longer than what holds them. -/
theorem length_le_of_mem {parts : List (List UInt8)} {c : List UInt8} (hc : c ∈ parts) :
    c.length ≤ parts.flatten.length :=
  (List.sublist_flatten_of_mem hc).length_le

section

variable {d : CborDec} {mt ai arg fuel : Nat} {hd rest : List UInt8} {what : Str}

/-- Behind a head, what it stands for is skipped. -/
theorem cdSkipAt_headed (h : Head mt ai arg hd) (hd' : d.input.val.drop d.pos = hd ++ rest)
    (hplain : mt = 7 → ai < 24) :
    cdSkipAt (fuel + 1) d what =
      let d1 := cdTake d hd.length
      if mt = 2 ∨ mt = 3 then
        if ai = 31 then cdSkipChunks d1 mt
        else do
          let len ← cbFitArg arg d1
          if len < 0 then .err (eofError what) else .ok (cdTake d1 len.toNat)
      else if mt = 4 ∨ mt = 5 then
        if ai = 31 then cdSkipOpen (cdSkipAt fuel) mt (d.input.val.length + 1) d1
        else do
          let items ← cbFitArg arg d1
          if items = -1 then .err (eofError what)
          else do
            let each := if mt = 5 then 2 else 1
            let n ← .checked (mul 64 items each)
            cdSkipItems (cdSkipAt fuel) mt n.toNat d1
      else if mt = 6 then cdSkipAt fuel d1 "a tagged value".toList
      else .ok d1 := by
  rw [cdSkipAt, cdReadHead_head h hd' hplain, Outcome.ok_bind]

/-- Past the head of a value that is no string and no container. -/
theorem cdSkipAt_single (h : Head mt ai arg hd) (hd' : d.input.val.drop d.pos = hd ++ rest)
    (hmt : mt = 0 ∨ mt = 1 ∨ mt = 7 ∧ ai < 24) :
    cdSkipAt (fuel + 1) d what = .ok (cdTake d hd.length) := by
  rw [cdSkipAt_headed h hd' (by omega)]
  rw [if_neg (by omega), if_neg (by omega), if_neg (by omega)]

theorem cdSkipAt_string (h : Head mt ai arg hd) (hd' : d.input.val.drop d.pos = hd ++ rest)
    (hmt : mt = 2 ∨ mt = 3) (hroom : arg ≤ rest.length) :
    cdSkipAt (fuel + 1) d what = .ok (cdTake d (hd.length + arg)) := by
  have hinfo := h.info_lt
  have hlen := next_le h hd'
  have hfit : (cdTake d hd.length).pos + arg ≤ (cdTake d hd.length).input.val.length := by
    rw [cdTake_pos, cdTake_input]
    omega
  rw [cdSkipAt_headed h hd' (by omega)]
  rw [if_pos hmt, if_neg (by omega), cbFitArg_eq hfit, Outcome.ok_bind, if_neg (by omega),
    Int.toNat_natCast, cdTake_cdTake]

/-- An array or a map skips its parts. -/
theorem cdSkipAt_parts (h : Head mt ai arg hd) (hd' : d.input.val.drop d.pos = hd ++ rest)
    (hmt : mt = 4 ∨ mt = 5) (hroom : arg ≤ rest.length) :
    cdSkipAt (fuel + 1) d what =
      cdSkipItems (cdSkipAt fuel) mt (if mt = 5 then 2 * arg else arg) (cdTake d hd.length) := by
  have hinfo := h.info_lt
  have hlen := next_le h hd'
  have hcap := d.input.property
  unfold listCap at hcap
  have hfit : (cdTake d hd.length).pos + arg ≤ (cdTake d hd.length).input.val.length := by
    rw [cdTake_pos, cdTake_input]
    omega
  rw [cdSkipAt_headed h hd' (by omega)]
  simp only []
  rw [if_neg (by omega), if_pos hmt, if_neg (by omega), cbFitArg_eq hfit, Outcome.ok_bind,
    if_neg (by omega)]
  by_cases hmap : mt = 5
  · have hmul : Fits 64 ((arg : Int) * 2) := fits_64.2 (by omega)
    have htwo : ((arg : Int) * 2).toNat = 2 * arg := by omega
    rw [if_pos hmap, if_pos hmap, mul_of_fits hmul, Outcome.checked_some, Outcome.ok_bind, htwo]
  · have hmul : Fits 64 ((arg : Int) * 1) := fits_64.2 (by omega)
    have hone : ((arg : Int) * 1).toNat = arg := by omega
    rw [if_neg hmap, if_neg hmap, mul_of_fits hmul, Outcome.checked_some, Outcome.ok_bind, hone]

theorem cdSkipAt_tag (h : Head 6 ai arg hd) (hd' : d.input.val.drop d.pos = hd ++ rest) :
    cdSkipAt (fuel + 1) d what =
      cdSkipAt fuel (cdTake d hd.length) "a tagged value".toList := by
  rw [cdSkipAt_headed h hd' (by omega)]
  simp only []
  rw [if_neg (by omega), if_neg (by omega), if_pos trivial]

/-- By induction on the item: what it holds is shorter, so there is fuel for it. -/
theorem cdSkipAt_item {depth : Nat} {c : List UInt8} (hitem : Item PlainHead depth c)
    (hfuel : c.length ≤ fuel) (hd' : d.input.val.drop d.pos = c ++ rest) :
    cdSkipAt fuel d what = .ok (cdTake d c.length) := by
  induction hitem generalizing d fuel rest what with
  | number h _ hmt =>
    obtain ⟨fuel, rfl⟩ := Nat.exists_eq_succ_of_ne_zero (show fuel ≠ 0 by have := h.length_pos; omega)
    exact cdSkipAt_single h hd' (by omega)
  | simple h hp _ =>
    obtain ⟨fuel, rfl⟩ := Nat.exists_eq_succ_of_ne_zero (show fuel ≠ 0 by have := h.length_pos; omega)
    exact cdSkipAt_single h hd' (Or.inr (Or.inr ⟨rfl, hp rfl⟩))
  | string h _ hmt =>
    have hpos := h.length_pos
    rw [List.length_append] at hfuel ⊢
    rw [List.append_assoc] at hd'
    obtain ⟨fuel, rfl⟩ := Nat.exists_eq_succ_of_ne_zero (show fuel ≠ 0 by omega)
    exact cdSkipAt_string h hd' hmt (by simp)
  | array h _ hparts ih =>
    have hpos := h.length_pos
    have hcount := length_le_flatten hparts
    rw [List.length_append] at hfuel ⊢
    rw [List.append_assoc] at hd'
    obtain ⟨fuel, rfl⟩ := Nat.exists_eq_succ_of_ne_zero (show fuel ≠ 0 by omega)
    rw [cdSkipAt_parts h hd' (Or.inl rfl) (by rw [List.length_append]; omega), if_neg (by decide),
      cdSkipItems_parts (drop_cdTake hd'), cdTake_cdTake]
    intro c hc d rest hd
    have hshort := length_le_of_mem hc
    exact ih c hc (by omega) hd
  | map h _ hn hparts ih =>
    have hpos := h.length_pos
    have hcount := length_le_flatten hparts
    rw [List.length_append] at hfuel ⊢
    rw [List.append_assoc] at hd'
    obtain ⟨fuel, rfl⟩ := Nat.exists_eq_succ_of_ne_zero (show fuel ≠ 0 by omega)
    rw [cdSkipAt_parts h hd' (Or.inr rfl) (by rw [List.length_append]; omega), if_pos rfl, ← hn,
      cdSkipItems_parts (drop_cdTake hd'), cdTake_cdTake]
    intro c hc d rest hd
    have hshort := length_le_of_mem hc
    exact ih c hc (by omega) hd
  | tag h _ _ ih =>
    have hpos := h.length_pos
    rw [List.length_append] at hfuel ⊢
    rw [List.append_assoc] at hd'
    obtain ⟨fuel, rfl⟩ := Nat.exists_eq_succ_of_ne_zero (show fuel ≠ 0 by omega)
    rw [cdSkipAt_tag h hd', ih (by omega) (drop_cdTake hd'), cdTake_cdTake]

/-- Before the bytes after a float's first, the skip stops. -/
theorem cdSkip_payload (h : Head 7 ai arg hd)
    (hd' : d.input.val.drop d.pos = hd ++ rest) : cdSkip d = .ok (cdTake d 1) := by
  unfold cdSkip
  rw [cdSkipAt, cdReadHead, cdPeekHead_head h hd']
  rfl

end

/-! ## Agreement -/

/-- The skip from `d` ends where `e` says. -/
def SkipsTo (d : CborDec) (e : Int) : Prop := ∃ n : Nat, cdSkip d = .ok (cdTake d n) ∧ e = d.pos + n

/-- A float or a two-byte simple value stands at `p`, all its bytes there. -/
def PayloadAt (bs : List UInt8) (p : Nat) : Prop :=
  ∃ ai arg hd rest, 24 ≤ ai ∧ Head 7 ai arg hd ∧ (ai = 24 → 32 ≤ arg) ∧ bs.drop p = hd ++ rest

/-- Without one in the input every item is plain. -/
theorem Item.plain {P : HeadOk} {depth : Nat} {c : List UInt8} (hitem : Item P depth c) {bs : List UInt8}
    (hnone : ∀ p, ¬ PayloadAt bs p) {p : Nat} {rest : List UInt8} (hd : bs.drop p = c ++ rest) :
    Item PlainHead depth c := by
  have hplain : ∀ {mt ai arg : Nat}, mt ≠ 7 → PlainHead mt ai arg := fun hne h7 => absurd h7 hne
  have hparts : ∀ {depth : Nat} {parts : List (List UInt8)},
      (∀ c ∈ parts, ∀ {p : Nat} {rest : List UInt8}, bs.drop p = c ++ rest →
        Item PlainHead depth c) →
      ∀ {p : Nat} {rest : List UInt8}, bs.drop p = parts.flatten ++ rest →
        ∀ c ∈ parts, Item PlainHead depth c := by
    intro depth parts ih
    induction parts with
    | nil => exact fun _ c hc => absurd hc List.not_mem_nil
    | cons a parts ihp =>
      intro p rest hd
      rw [List.flatten_cons, List.append_assoc] at hd
      have ha := ih a List.mem_cons_self hd
      have hrest := ihp (fun c hc => ih c (List.mem_cons_of_mem _ hc)) (drop_next hd)
      exact List.forall_mem_cons.2 ⟨ha, hrest⟩
  induction hitem generalizing p rest with
  | number h _ hmt => exact .number h (hplain (by omega)) hmt
  | string h _ hmt => exact .string h (hplain (by omega)) hmt
  | array h _ _ ih =>
    rw [List.append_assoc] at hd
    exact .array h (hplain (by decide)) (hparts ih (drop_next hd))
  | map h _ hn _ ih =>
    rw [List.append_assoc] at hd
    exact .map h (hplain (by decide)) hn (hparts ih (drop_next hd))
  | tag h _ _ ih =>
    rw [List.append_assoc] at hd
    exact .tag h (hplain (by decide)) (ih (drop_next hd))
  | simple h _ hs =>
    refine .simple h (fun _ => ?_) hs
    by_contra h24
    exact hnone p ⟨_, _, _, _, by omega, h, hs, hd⟩

/-- Over an item of plain heads the skip ends where the walk does. -/
theorem skipsTo_of_plain {d : CborDec} {depth : Nat} {c rest : List UInt8}
    (hd : d.input.val.drop d.pos = c ++ rest) (hplain : Item PlainHead depth c) :
    SkipsTo d ((d.pos + c.length : Nat) : Int) := by
  have hlen := congrArg List.length hd
  rw [List.length_drop, List.length_append] at hlen
  refine ⟨c.length, cdSkipAt_item hplain (by omega) hd, ?_⟩
  rw [Nat.cast_add]

/-- The walk accepts an item from `p` to `e`. -/
def Accepts (bs : List UInt8) (depth p : Nat) (e : Int) : Prop :=
  cborWfItem bs depth p = some e ∧ 0 ≤ e

/-- The skip ends where the walk does at every position at which the walk accepts an item, exactly
when no float and no two-byte simple value stands in the input; and at one position when none is
in the item there. -/
theorem skip_agrees_iff (bs : ByteList) :
    ((∀ (d : CborDec) (depth : Nat) (e : Int), d.input = bs →
        Accepts bs.val depth d.pos e → SkipsTo d e) ↔
      ∀ p, ¬ PayloadAt bs.val p) ∧
    ∀ (d : CborDec) (depth : Nat) (e : Int), d.input = bs → Accepts bs.val depth d.pos e →
      Item PlainHead depth ((bs.val.drop d.pos).take (e.toNat - d.pos)) → SkipsTo d e := by
  refine ⟨⟨?_, ?_⟩, ?_⟩
  · rintro hagree p ⟨ai, arg, hd, rest, h24, h, hs, hp⟩
    have hwide : 1 < hd.length := by
      cases h with
      | short _ hai => omega
      | wide _ _ _ hw =>
        have hpos := cbArgWidth_pos ai
        rw [List.length_cons]
        omega
    have hwalk : cborWfItem bs.val 0 p = some ((p + hd.length : Nat) : Int) := by
      rw [cborWfItem_simple bs.property h hp, if_neg (fun hcon => absurd (hs hcon.1) (by omega))]
    obtain ⟨n, hskip, hend⟩ := hagree ⟨bs, p, [], 0, 0⟩ 0 _ rfl ⟨hwalk, Int.natCast_nonneg _⟩
    -- the skip stops after one byte
    have hone := @cdSkip_payload ⟨bs, p, [], 0, 0⟩ _ _ _ _ h hp
    rw [hone] at hskip
    have hpos : p + 1 = p + n := congrArg CborDec.pos (Outcome.ok.inj hskip)
    have hend' : ((p + hd.length : Nat) : Int) = (p : Int) + n := hend
    omega
  · rintro hnone d depth e rfl ⟨hwalk, he⟩
    obtain ⟨c, rest, hc, hitem, rfl⟩ :=
      (readsItems_cborWfItem d.input.property depth).sound hwalk he
    exact skipsTo_of_plain hc (hitem.plain hnone hc)
  · rintro d depth e rfl ⟨hwalk, he⟩ hplain
    obtain ⟨c, rest, hc, -, rfl⟩ := (readsItems_cborWfItem d.input.property depth).sound hwalk he
    have hspan : ((d.pos + c.length : Nat) : Int).toNat - d.pos = c.length := by omega
    rw [hspan, hc, List.take_left] at hplain
    exact skipsTo_of_plain hc hplain

/-- The walk passes over a half-precision 1.0; the skip stops before its two bytes. -/
theorem skip_half_one :
    Accepts [0xF9, 0x3C, 0] 0 0 3 ∧
    cdSkip (cborDecoder ⟨[0xF9, 0x3C, 0], by decide⟩) =
      .ok (cdTake (cborDecoder ⟨[0xF9, 0x3C, 0], by decide⟩) 1) ∧
    ¬ SkipsTo (cborDecoder ⟨[0xF9, 0x3C, 0], by decide⟩) 3 := by
  have hskip : cdSkip (cborDecoder ⟨[0xF9, 0x3C, 0], by decide⟩) =
      .ok (cdTake (cborDecoder ⟨[0xF9, 0x3C, 0], by decide⟩) 1) := rfl
  refine ⟨⟨by decide +kernel, by decide⟩, hskip, ?_⟩
  rintro ⟨n, hn, hend⟩
  have hpos : 0 + 1 = 0 + n := congrArg CborDec.pos (Outcome.ok.inj hn)
  have hend' : (3 : Int) = ((0 : Nat) : Int) + n := hend
  omega

end Cbor
