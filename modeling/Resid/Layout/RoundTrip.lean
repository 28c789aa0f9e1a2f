import Resid.Layout.Parser
import Resid.Layout.Serializer
import Resid.Layout.Written

/-!
# When the generated code aborts

The generated parsers and serializers answer or return an error exactly outside their traps.

    lyParse ex ts t b ≠ abort ↔ ¬ Traps ex ts b lyLevels t 0                  (generated_total)
    Typed … vs → (lyBytes … vs ≠ abort ↔ ¬ BytesTraps ex ts lyLevels t vs)
-/

namespace Layout

open Runtime CheckedInt

variable {ex : Exprs} {ts : List LyT} {b : List UInt8} {t : LyT} {f : LyF} {done : List LyF}
  {env : Env}

/-- `T_parse_at`, `T_parse` and `T_bytes` abort at the traps and nowhere else. -/
theorem generated_total (ex : Exprs) (hacc : Accepted ts) (hsmall : Small ts) (ht : t ∈ ts) :
    (∀ b, b.length ≤ listMax → ∀ at' : Int,
        lyParseAt ex ts b lyLevels t at' ≠ .abort ↔
          ¬ (0 ≤ at' ∧ Traps ex ts b lyLevels t at'.toNat)) ∧
      (∀ b, b.length ≤ listMax → (lyParse ex ts t b ≠ .abort ↔ ¬ Traps ex ts b lyLevels t 0)) ∧
      ∀ vs, Typed ts lyLevels t vs →
        (lyBytes ex ts lyLevels t vs ≠ .abort ↔ ¬ BytesTraps ex ts lyLevels t vs) := by
  refine ⟨fun b hb at' => ?_, fun b hb => ?_, fun vs hvs => ?_⟩
  · exact not_congr (parseAt_abort hacc (hsmall.bounded hacc ht _) hb ht at')
  · exact not_congr (parse_abort hacc (hsmall.bounded hacc ht _) hb ht)
  · exact not_congr (agrees_bytes hacc ht hvs).2

/-! ## Traps that are reached -/

/-- Conditions that always hold. -/
def plainExprs : Exprs := ⟨fun _ _ => true, fun _ _ => 0⟩

def plainField (name ty : String) (len : String) : LyF :=
  ⟨name.toList, ty.toList, [], len.toList, 0, 0, nofun⟩

/-- A signed length before the bytes it counts. -/
def signedLen : LyT :=
  ⟨"Signed".toList, .le, [plainField "n" "Int(8)" "", plainField "d" "List(UInt(8))" "n"], 0,
    by decide⟩

/-- A C type with three bytes of tail padding. -/
def padded : LyT :=
  ⟨"Padded".toList, .cAbi, [plainField "a" "UInt(32)" "", plainField "n" "UInt(8)" ""], 0,
    by decide⟩

/-- The padded type before a flexible array member. -/
def flexible : LyT :=
  ⟨"Flexible".toList, .cAbi, [plainField "k" "UInt(8)" "", plainField "h" "Padded" "",
    plainField "d" "List(UInt(8))" "k"], 0, by decide⟩

/-- A condition whose constructor takes the field. -/
def checkedField : LyT :=
  ⟨"Checked".toList, .le, [⟨"v".toList, "UInt(64)".toList,
    [("v < 4".toList, some ⟨"Version".toList, ["v".toList]⟩)], [], 0, 0, nofun⟩], 0, by decide⟩

/-- `v < 4` and `v` themselves. -/
def versionExprs : Exprs :=
  ⟨fun _ env => lyInt env "v".toList < 4, fun _ env => lyInt env "v".toList⟩

/-- A variable field before the last one. -/
def middle : LyT :=
  ⟨"Middle".toList, .le, [plainField "n" "UInt(8)" "", plainField "d" "List(UInt(8))" "n",
    plainField "x" "UInt(8)" ""], 0, by decide⟩

theorem layouts_accepted :
    (Accepted [signedLen] ∧ Small [signedLen]) ∧
    (Accepted [padded, flexible] ∧ Small [padded, flexible]) ∧
    (Accepted [checkedField] ∧ Small [checkedField]) ∧ Accepted [middle] ∧
    (signedLen.fs.all fun f => (lyType [signedLen] f.ty).isNone) = true ∧
    lyTypeSize [middle] lyLevels middle = -1 ∧
      (([1, 7, 9] : List UInt8).length : Int) ≠ lyTypeSize [middle] lyLevels middle +
        varLen [middle] lyLevels middle [.int 1, .bytes [7], .int 9] := by
  decide +kernel

/-- A record with a negative length, bytes that end in the padding before a flexible array member,
and a condition that fails with a number above every Int: the generated code aborts. -/
theorem generated_aborts :
    (Accepted [signedLen] ∧ Small [signedLen] ∧
        Typed [signedLen] lyLevels signedLen [.int (-1), .bytes []] ∧
        lyBytes plainExprs [signedLen] lyLevels signedLen [.int (-1), .bytes []] = .abort) ∧
      (Accepted [padded, flexible] ∧ Small [padded, flexible] ∧
        lyParse plainExprs [padded, flexible] flexible (List.replicate 9 0) = .abort) ∧
      (Accepted [checkedField] ∧ Small [checkedField] ∧
        lyParse versionExprs [checkedField] checkedField (List.replicate 8 255) = .abort) := by
  obtain ⟨⟨hsigned, hsmall⟩, ⟨hpadded, hpsmall⟩, ⟨hchecked, hcsmall⟩, -⟩ := layouts_accepted
  refine ⟨⟨hsigned, hsmall, ?_, by rfl⟩, ⟨hpadded, hpsmall, by rfl⟩, ⟨hchecked, hcsmall, by rfl⟩⟩
  exact ⟨.int (by decide) (-1) (by decide), .bytes rfl [] (by decide), rfl⟩

theorem generated_total_signed :
    (lyBytes plainExprs [signedLen] lyLevels signedLen [.int 0, .bytes []] ≠ .abort ↔
      ¬ BytesTraps plainExprs [signedLen] lyLevels signedLen [.int 0, .bytes []]) ∧
    (lyParse plainExprs [signedLen] signedLen [0] ≠ .abort ↔
      ¬ Traps plainExprs [signedLen] [0] lyLevels signedLen 0) := by
  have h := @generated_total [signedLen] signedLen plainExprs layouts_accepted.1.1 layouts_accepted.1.2
    (by simp)
  exact ⟨h.2.2 _ ⟨.int (by decide) 0 (by decide), .bytes rfl [] (by decide), rfl⟩,
    h.2.1 _ (by decide)⟩

end Layout

/-!
## Round trips

What is written for a record stands in the bytes at the same offsets, so the parser answers the
record; in a packed type without reserved bytes, what stands is what would be written.

    Writes … vs bs → Stands … (front ++ bs ++ back) … front.length vs q            (writes_stand)
    Stands … p vs q, packed, nothing reserved → Writes … vs (bytes p … q)          (stands_write)
    lyBytes … vs = ok bs → lyParse … bs = ok vs                                    (round_trip)
-/

namespace Layout

open Runtime CheckedInt

variable {ex : Exprs} {ts : List LyT} {b : List UInt8} {t : LyT} {f : LyF} {done fs : List LyF}
  {env : Env} {vs : List Val} {off : Int} {acc out bs front back : List UInt8}

/-! ## What is written stands -/

section Forward

variable {st : LyT → List Val → List UInt8 → Prop} {sd : LyT → Nat → List Val → Nat → Prop}
  {ty : LyT → List Val → Prop}

theorem take_part (front bs back : List UInt8) :
    ((front ++ bs ++ back).drop front.length).take bs.length = bs := by
  rw [List.append_assoc, List.drop_left, List.take_left]

/-- Nested records stand where they were written. -/
def SubStands (st : LyT → List Val → List UInt8 → Prop) (sd : LyT → Nat → List Val → Nat → Prop)
    (ty : LyT → List Val → Prop) (b : List UInt8) (n : LyT) : Prop :=
  ∀ vs bs front back, ty n vs → st n vs bs → b = front ++ bs ++ back →
    ∃ q, sd n front.length vs q ∧ (n.kind ≠ .cAbi → q = front.length + bs.length)

theorem value_stands {v : Val} (hw : ValueWrites st ts t f env v bs) (hv : ValueTyped ty ts f v)
    (hb : b = front ++ bs ++ back)
    (hsub : ∀ n, lyType ts f.ty = some n → n.kind = t.kind ∧ SubStands st sd ty b n) :
    ∃ q, ValueStands sd ts b t f env front.length v q ∧
      (t.kind ≠ .cAbi → q = front.length + bs.length) := by
  have hlen : front.length + bs.length ≤ b.length := by
    rw [hb]
    simp
  have htake : (b.drop front.length).take bs.length = bs := by rw [hb, take_part]
  cases hw with
  | int hbits n =>
    rw [length_encode] at hlen htake ⊢
    have hrange : InRange f.ty n := by
      obtain ⟨m, hm, hrange⟩ := hv.int_inRange hbits
      cases hm
      exact hrange
    have hvalue := decode_encode hbits hrange (t.kind = .be)
    refine ⟨_, ?_, fun _ => rfl⟩
    have hstands : ValueStands sd ts b t f env front.length _ _ := .int hbits hlen
    rwa [htake, hvalue] at hstands
  | bytes hty _ hn =>
    refine ⟨_, ?_, fun _ => rfl⟩
    have hstands : ValueStands sd ts b t f env front.length _ _ := .bytes hty bs.length hn hlen
    rwa [htake] at hstands
  | nested hbits hty n hn vs _ h =>
    obtain ⟨hkind, hstands⟩ := hsub n hn
    have hvs : ty n vs := by
      cases hv with
      | nested _ _ m hm _ hvs =>
        rw [hn] at hm
        cases hm
        exact hvs
    obtain ⟨q, hq, hpacked⟩ := hstands vs bs front back hvs h hb
    exact ⟨q, .nested hbits hty n hn vs q hq, fun hc => hpacked (by rwa [hkind])⟩

theorem fields_stand (hacc : Accepted ts) (ht : t ∈ ts)
    (hsub : ∀ f ∈ t.fs, ∀ n, lyType ts f.ty = some n → SubStands st sd ty b n)
    (hst : ∀ f ∈ t.fs, ∀ n vs bs, lyType ts f.ty = some n → t.kind = .cAbi → st n vs bs →
      (bs.length : Int) = lyTypeSize ts lyLevels n)
    (hfs : t.fs = done ++ fs) (hplace : InPlace ts t done off acc) (hvs : FieldsTyped ty ts fs vs)
    (h : FieldsWrite st ex ts t fs vs env off acc out) (hb : b = front ++ out ++ back) {p : Nat}
    (hp : t.kind ≠ .cAbi → p = front.length + acc.length) :
    ∃ env' q, FieldsStand sd ex ts b t front.length done.length fs env p env' q ∧
      env'.map Prod.snd = env.map Prod.snd ++ vs ∧
      (t.kind ≠ .cAbi → q = front.length + out.length) := by
  induction fs generalizing done vs env off acc p with
  | nil =>
    obtain ⟨rfl, hout⟩ := h
    refine ⟨env, p, ⟨rfl, rfl⟩, by simp, fun hc => ?_⟩
    rw [hp hc, hout, lyTail, if_neg hc, if_neg (by omega), List.append_nil]
  | cons f fs ih =>
    have hf : f ∈ t.fs := by simp [hfs]
    have hfs' : t.fs = (done ++ [f]) ++ fs := by simp [hfs]
    have hok := hacc.field ht hfs
    -- the field starts behind everything written so far and its padding
    have hstart : lyStart ts t front.length done.length p =
        (front ++ (acc ++ lyPad off (lyPlace ts t f off))).length := by
      unfold lyStart
      split_ifs with hc
      · obtain ⟨heq, hlen⟩ := hplace.pad hc (hacc.not_variable ht hc hfs) hfs
        rw [List.length_append]
        omega
      · have hself : lyPlace ts t f off = off := if_neg hc
        rw [hself, lyPad_self, List.append_nil, List.length_append, hp hc]
    have hshift : (done ++ [f]).length = done.length + 1 := by simp
    unfold FieldsWrite at h
    unfold FieldsTyped at hvs
    by_cases hrsv : f.rsv > 0
    · simp only [if_pos hrsv] at h hvs
      obtain ⟨more, hmore⟩ := h.extends
      have hfield : FieldStands sd ex ts b t f env (lyStart ts t front.length done.length p) env
          (lyStart ts t front.length done.length p + f.rsv) := by
        refine .reserved hrsv ?_
        rw [hstart, hb, hmore]
        simp
        omega
      have hnext := ih hfs' (hplace.step hfs hok fun _ _ => length_reserved ts hrsv) hvs h
        (p := lyStart ts t front.length done.length p + f.rsv) fun hc => by
          rw [hstart]
          simp
          omega
      obtain ⟨env', q, hstands, hvalues, hq⟩ := hnext
      rw [hshift] at hstands
      exact ⟨env', q, ⟨env, _, hfield, hstands⟩, hvalues, hq⟩
    · simp only [if_neg hrsv] at h hvs
      cases vs with
      | nil => exact hvs.elim
      | cons v vs =>
        obtain ⟨hv, hvs⟩ := hvs
        obtain ⟨bs, hw, hpass, h⟩ := h
        obtain ⟨more, hmore⟩ := h.extends
        have hpart : b = (front ++ (acc ++ lyPad off (lyPlace ts t f off))) ++ bs ++
            (more ++ back) := by
          rw [hb, hmore]
          simp
        obtain ⟨m, hvalue, hm⟩ := value_stands hw hv hpart fun n hn =>
          ⟨hok.kind_eq hn, hsub f hf n hn⟩
        rw [← hstart] at hvalue
        have hfield : FieldStands sd ex ts b t f env (lyStart ts t front.length done.length p)
            (env ++ [(f.name, v)]) m := .value (by omega) v m hvalue hpass
        have hstep := hplace.step hfs hok fun hvar hc =>
          hw.length_eq hok (by omega) hvar fun n vs bs hn => hst f hf n vs bs hn hc
        obtain ⟨env', q, hstands, hvalues, hq⟩ := ih hfs' hstep hvs h (p := m) fun hc => by
          rw [hm hc]
          simp
          omega
        rw [hshift] at hstands
        refine ⟨env', q, ⟨_, m, hfield, hstands⟩, ?_, hq⟩
        rw [hvalues]
        simp

end Forward

/-- A record stands where it was written; a packed one ends with its bytes. -/
theorem writes_stand (hacc : Accepted ts) {left : Nat} (ht : t ∈ ts) (hvs : Typed ts left t vs)
    (h : Writes ex ts left t vs bs) (hb : b = front ++ bs ++ back) :
    ∃ q, Stands ex ts b left t front.length vs q ∧
      (t.kind ≠ .cAbi → q = front.length + bs.length) := by
  induction left generalizing t vs bs front back with
  | zero => exact h.elim
  | succ left ih =>
    have hsub : ∀ f ∈ t.fs, ∀ n, lyType ts f.ty = some n →
        SubStands (Writes ex ts left) (Stands ex ts b left) (Typed ts left) b n :=
      fun f _ n hn vs bs front back hvs hw hb => ih (mem_of_lyType hn) hvs hw hb
    have hst : ∀ f ∈ t.fs, ∀ n vs bs, lyType ts f.ty = some n → t.kind = .cAbi →
        Writes ex ts left n vs bs → (bs.length : Int) = lyTypeSize ts lyLevels n := by
      intro f hf n vs bs hn hc hw
      obtain ⟨done, rest, hfs⟩ := List.append_of_mem hf
      obtain ⟨hkind, hfix⟩ := (hacc.field ht hfs).nested_fixed hn
      exact writes_length_c hacc (mem_of_lyType hn) (hkind.trans hc) (hfix hc) hw
    obtain ⟨env', q, hstands, hvalues, hq⟩ := fields_stand hacc ht hsub hst
      (List.nil_append t.fs).symm .nil hvs h hb (p := front.length) fun _ => by simp
    refine ⟨lyStop ts t front.length q, ⟨?_, env', q, hstands, ?_, rfl⟩, fun hc => ?_⟩
    · rw [hb]
      simp
    · simpa using hvalues.symm
    · unfold lyStop
      rw [if_neg hc, hq hc]

/-! ## What stands is written -/

/-- Nothing is reserved, in nested types either. -/
def NoReserved (ts : List LyT) : (left : Nat) → LyT → Prop
  | 0, _ => True
  | left + 1, t => ∀ f ∈ t.fs, f.rsv = 0 ∧
      ∀ n, lyType ts f.ty = some n → NoReserved ts left n

section Backward

variable {st : LyT → List Val → List UInt8 → Prop} {sd : LyT → Nat → List Val → Nat → Prop}
  {ty : LyT → List Val → Prop}

/-- Nested records are written as the bytes they stand in. -/
def SubWrites (st : LyT → List Val → List UInt8 → Prop) (sd : LyT → Nat → List Val → Nat → Prop)
    (ty : LyT → List Val → Prop) (b : List UInt8) (n : LyT) : Prop :=
  ∀ p vs q, sd n p vs q → p ≤ q ∧ q ≤ b.length ∧ ty n vs ∧ st n vs ((b.drop p).take (q - p))

theorem value_writes {v : Val} {p q : Nat} (h : ValueStands sd ts b t f env p v q)
    (hb : b.length ≤ listMax) (hsub : ∀ n, lyType ts f.ty = some n → SubWrites st sd ty b n) :
    p ≤ q ∧ q ≤ b.length ∧ ValueTyped ty ts f v ∧
      ValueWrites st ts t f env v ((b.drop p).take (q - p)) := by
  cases h with
  | int hbits hq =>
    have hlen : ((b.drop p).take (lyIntBits f.ty / 8)).length = lyIntBits f.ty / 8 := by
      rw [List.length_take, List.length_drop]
      omega
    refine ⟨by omega, hq, .int hbits _ (decode_inRange hlen _), ?_⟩
    rw [Nat.add_sub_cancel_left]
    have hw : ValueWrites st ts t f env _ _ :=
      .int hbits (decode (t.kind = .be) f.ty ((b.drop p).take (lyIntBits f.ty / 8)))
    rwa [encode_decode hlen] at hw
  | bytes hty n hn hq =>
    have hlen : ((b.drop p).take n).length = n := by
      rw [List.length_take, List.length_drop]
      omega
    refine ⟨by omega, hq, .bytes hty _ (by omega), ?_⟩
    rw [Nat.add_sub_cancel_left]
    exact .bytes hty _ (by rw [hlen, hn])
  | nested hbits hty n hn vs _ h =>
    obtain ⟨hpq, hq, hvs, hw⟩ := hsub n hn p vs q h
    exact ⟨hpq, hq, .nested hbits hty n hn vs hvs, .nested hbits hty n hn vs _ hw⟩

theorem take_append_take (b : List UInt8) {p m q : Nat} (hpm : p ≤ m) (hmq : m ≤ q) :
    (b.drop p).take (m - p) ++ (b.drop m).take (q - m) = (b.drop p).take (q - p) := by
  have hsplit : q - p = (m - p) + (q - m) := by omega
  rw [hsplit, List.take_add, List.drop_drop]
  congr 3
  omega

theorem fields_write (hc : t.kind ≠ .cAbi) (hb : b.length ≤ listMax)
    (hrsv : ∀ f ∈ fs, f.rsv = 0)
    (hsub : ∀ f ∈ fs, ∀ n, lyType ts f.ty = some n → SubWrites st sd ty b n) {base i p q : Nat}
    {env' : Env} (h : FieldsStand sd ex ts b t base i fs env p env' q) (hp : p ≤ b.length)
    (off : Int) (acc : List UInt8) :
    p ≤ q ∧ q ≤ b.length ∧ ∃ vs, env'.map Prod.snd = env.map Prod.snd ++ vs ∧
      FieldsTyped ty ts fs vs ∧
      FieldsWrite st ex ts t fs vs env off acc (acc ++ (b.drop p).take (q - p)) := by
  induction fs generalizing env i p off acc with
  | nil =>
    obtain ⟨rfl, rfl⟩ := h
    refine ⟨le_rfl, hp, [], by simp, rfl, rfl, ?_⟩
    rw [lyTail, if_neg hc, if_neg (by omega)]
    simp
  | cons f fs ih =>
    obtain ⟨e, m, hfield, hmore⟩ := h
    have hzero := hrsv f List.mem_cons_self
    have hstart : lyStart ts t base i p = p := if_neg hc
    have hself : lyPlace ts t f off = off := if_neg hc
    rw [hstart] at hfield
    cases hfield with
    | reserved h => omega
    | value _ v _ hv hpass =>
      obtain ⟨hpm, hm, hty, hw⟩ := value_writes hv hb (hsub f List.mem_cons_self)
      obtain ⟨hmq, hq, vs, hvalues, htyped, hwrite⟩ := ih
        (fun g hg => hrsv g (List.mem_cons_of_mem f hg))
        (fun g hg => hsub g (List.mem_cons_of_mem f hg)) hmore hm (off + lyWidth ts f)
        (acc ++ (b.drop p).take (m - p))
      refine ⟨hpm.trans hmq, hq, v :: vs, ?_, ?_, ?_⟩
      · rw [hvalues]
        simp
      · unfold FieldsTyped
        rw [if_neg (by omega)]
        exact ⟨hty, htyped⟩
      · unfold FieldsWrite
        simp only [hself, lyPad_self, List.append_nil]
        rw [if_neg (by omega)]
        refine ⟨_, hw, hpass, ?_⟩
        rwa [List.append_assoc, take_append_take b hpm hmq] at hwrite

end Backward

/-- A packed record without reserved bytes is written as the bytes it stands in. -/
theorem stands_write (hacc : Accepted ts) (hb : b.length ≤ listMax) {left : Nat} (ht : t ∈ ts)
    (hc : t.kind ≠ .cAbi) (hrsv : NoReserved ts left t) {p q : Nat}
    (h : Stands ex ts b left t p vs q) :
    p ≤ q ∧ q ≤ b.length ∧ Typed ts left t vs ∧
      Writes ex ts left t vs ((b.drop p).take (q - p)) := by
  induction left generalizing t vs p q with
  | zero => exact h.elim
  | succ left ih =>
    obtain ⟨hp, env, m, hfields, rfl, rfl⟩ := h
    have hstop : lyStop ts t p m = m := if_neg hc
    have hsub : ∀ f ∈ t.fs, ∀ n, lyType ts f.ty = some n →
        SubWrites (Writes ex ts left) (Stands ex ts b left) (Typed ts left) b n := by
      intro f hf n hn p vs q hstands
      obtain ⟨done, rest, hfs⟩ := List.append_of_mem hf
      have hkind := (hacc.field ht hfs).kind_eq hn
      exact ih (mem_of_lyType hn) (by rwa [hkind]) ((hrsv f hf).2 n hn) hstands
    obtain ⟨hpq, hq, vs, hvalues, htyped, hwrite⟩ := fields_write hc hb
      (fun f hf => (hrsv f hf).1) hsub hfields hp 0 []
    rw [hstop, hvalues]
    exact ⟨hpq, hq, htyped, hwrite⟩

/-! ## A parser that answered stayed in the list -/

variable {n q start : Int} {e : Env}

theorem addI_ok {a m : Int} (h : addI a n = .ok m) : m = a + n := by
  unfold addI add check at h
  split_ifs at h
  · cases h
    rfl
  · cases h

theorem lyTake_ok (h : lyTake ex t b f env start n = .ok (e, q)) :
    q = start + n ∧ q ≤ b.length := by
  obtain ⟨stop, hstop, h⟩ := Out.bind_ok.1 h
  split_ifs at h with hlong
  obtain ⟨_, -, hpair⟩ := Out.bind_ok.1 h
  cases hpair
  exact ⟨addI_ok hstop, not_lt.1 hlong⟩

theorem lyVarLen_ok {size : Nat} (h : lyVarLen t done f env size start = .ok n) : 0 ≤ n := by
  simp only [lyVarLen] at h
  split_ifs at h
  obtain ⟨want, hwant, h⟩ := Out.bind_ok.1 h
  obtain ⟨_, -, h⟩ := Out.bind_ok.1 h
  obtain ⟨_, -, h⟩ := Out.bind_ok.1 h
  split_ifs at h
  have hpos : 0 ≤ lyInt env f.len := by
    by_contra hneg
    rw [toU64_of_neg (by omega)] at hwant
    cases hwant
  by_cases hfits : Fits 64 (lyInt env f.len)
  · rw [toInt_of_fits hfits] at h
    cases h
    exact hpos
  · rw [toInt_of_not_fits hfits] at h
    cases h

/-- A field that was read takes no more than the list. -/
theorem parseField_in {sub : LyT → Int → Out At} {bounded : LyT → Prop} {last : Bool}
    (hok : FieldOk ts t done f last) (hstart : 0 ≤ start)
    (hsub : ∀ n r, lyType ts f.ty = some n → sub n start = .ok r → 0 ≤ r.stop ∧ bounded n)
    (h : lyParseField sub ex ts t b done f env start = .ok (e, q)) : 0 ≤ q ∧ f.rsv ≤ b.length ∧
      (f.ty = bytesTy → strIsInt f.len = true → strParseInt f.len ≤ b.length) ∧
      ∀ n, lyType ts f.ty = some n → bounded n := by
  unfold lyParseField at h
  cases hok with
  | reserved hrsv =>
    rw [if_pos hrsv] at h
    obtain ⟨stop, hstop, h⟩ := Out.bind_ok.1 h
    have heq := addI_ok hstop
    split_ifs at h with hlong
    cases h
    refine ⟨by omega, by omega, fun hty => ?_, fun n hn => ?_⟩
    · rw [(f.bare hrsv).2.1] at hty
      exact absurd hty (by decide)
    · have := (nested_of_lyType hn).1
      omega
  | int hrsv hbits =>
    rw [if_neg (by omega), if_pos hbits] at h
    obtain ⟨stop, hstop, h⟩ := Out.bind_ok.1 h
    have heq := addI_ok hstop
    have hshort : ¬ stop > b.length := by
      intro hlong
      rw [if_pos hlong] at h
      cases h
    rw [if_neg hshort] at h
    obtain ⟨_, -, h⟩ := Out.bind_ok.1 h
    obtain ⟨_, -, hpair⟩ := Out.bind_ok.1 h
    cases hpair
    refine ⟨by omega, by omega, fun hty => ?_, fun n hn => ?_⟩
    · rw [hty, lyIntBits_bytesTy] at hbits
      omega
    · have := (nested_of_lyType hn).2.1
      omega
  | fixed hrsv hty hint hn =>
    rw [if_neg (by omega), hty, lyIntBits_bytesTy, if_neg (by omega), if_pos rfl, lyParseBytes,
      if_pos hint] at h
    obtain ⟨hq, hle⟩ := lyTake_ok h
    exact ⟨by omega, by omega, fun _ _ => by omega, fun n hn =>
      absurd hty (nested_of_lyType hn).2.2⟩
  | var hrsv hty hlen hint =>
    rw [if_neg (by omega), hty, lyIntBits_bytesTy, if_neg (by omega), if_pos rfl, lyParseBytes,
      if_neg (by simp [hint])] at h
    obtain ⟨n, hn, h⟩ := Out.bind_ok.1 h
    have hpos := lyVarLen_ok hn
    obtain ⟨hq, -⟩ := lyTake_ok h
    refine ⟨by omega, by omega, fun _ h => ?_, fun n hn => absurd hty (nested_of_lyType hn).2.2⟩
    rw [hint] at h
    cases h
  | nested hrsv hbits hty hlen n hn =>
    rw [if_neg (by omega), if_neg (by omega), if_neg hty, lyParseNested, hn] at h
    obtain ⟨r, hr, h⟩ := Out.bind_ok.1 h
    obtain ⟨_, -, hpair⟩ := Out.bind_ok.1 h
    cases hpair
    obtain ⟨hstop, hbound⟩ := hsub n r hn hr
    refine ⟨hstop, by omega, fun h => absurd h hty, fun m hm => ?_⟩
    rw [hn] at hm
    cases hm
    exact hbound

theorem parseFields_in {sub : LyT → Int → Out At} {bounded : LyT → Prop} (hacc : Accepted ts)
    (ht : t ∈ ts) (hc : t.kind ≠ .cAbi)
    (hsub : ∀ f ∈ t.fs, ∀ n r start, lyType ts f.ty = some n → sub n start = .ok r →
      0 ≤ start → 0 ≤ r.stop ∧ bounded n)
    (hfs : t.fs = done ++ fs) {base p : Int} (hp : 0 ≤ p)
    (h : lyParseFields sub ex ts t b base done fs env p = .ok (e, q)) :
    0 ≤ q ∧ ∀ f ∈ fs, f.rsv ≤ b.length ∧
      (f.ty = bytesTy → strIsInt f.len = true → strParseInt f.len ≤ b.length) ∧
      ∀ n, lyType ts f.ty = some n → bounded n := by
  induction fs generalizing done env p with
  | nil =>
    cases h
    exact ⟨hp, fun f hf => nomatch hf⟩
  | cons f fs ih =>
    have hf : f ∈ t.fs := by simp [hfs]
    have hfs' : t.fs = (done ++ [f]) ++ fs := by simp [hfs]
    have hstart : lyFieldStart ts t base done.length p = .ok p := if_neg hc
    rw [lyParseFields, hstart, Out.ok_bind] at h
    obtain ⟨⟨e', m⟩, hfield, hmore⟩ := Out.bind_ok.1 h
    obtain ⟨hm, hin⟩ := parseField_in (hacc.field ht hfs) hp
      (fun n r hn hr => hsub f hf n r p hn hr hp) hfield
    obtain ⟨hq, hrest⟩ := ih hfs' hm hmore
    refine ⟨hq, fun g hg => ?_⟩
    rcases List.mem_cons.1 hg with rfl | hg
    · exact hin
    · exact hrest g hg

theorem parse_bounded (hacc : Accepted ts) (hb : b.length ≤ listMax) {left : Nat} (ht : t ∈ ts)
    (hc : t.kind ≠ .cAbi) {p : Int} {r : At} (hp : 0 ≤ p)
    (h : lyParseAt ex ts b left t p = .ok r) : 0 ≤ r.stop ∧ Bounded ts left t := by
  induction left generalizing t p r with
  | zero => cases h
  | succ left ih =>
    rw [lyParseAt] at h
    split_ifs at h
    obtain ⟨⟨e, q⟩, hfields, h⟩ := Out.bind_ok.1 h
    have hstop : lyRecordStop ts t p q = .ok q := if_neg hc
    rw [hstop, Out.ok_bind] at h
    cases h
    have hsub : ∀ f ∈ t.fs, ∀ n r start, lyType ts f.ty = some n →
        lyParseAt ex ts b left n start = .ok r → 0 ≤ start → 0 ≤ r.stop ∧ Bounded ts left n := by
      intro f hf n r start hn hr hs
      obtain ⟨done, rest, hfs⟩ := List.append_of_mem hf
      have hkind := (hacc.field ht hfs).kind_eq hn
      exact ih (mem_of_lyType hn) (by rwa [hkind]) hs hr
    obtain ⟨hq, hin⟩ := parseFields_in hacc ht hc hsub (List.nil_append t.fs).symm hp hfields
    unfold listMax at hb
    refine ⟨hq, ⟨?_, ?_, fun h => absurd h hc, fun h => absurd h hc⟩, fun f hf => (hin f hf).2.2⟩
    · intro f hf
      have := (hin f hf).1
      omega
    · intro f hf hty hint
      have := (hin f hf).2.1 hty hint
      omega

/-! ## The flexible array member -/

/-- The last field of a C type, when it is variable, starts at its C offset and ends the bytes. -/
theorem fieldsWrite_flexible {st : LyT → List Val → List UInt8 → Prop} (hacc : Accepted ts)
    (ht : t ∈ ts) (hc : t.kind = .cAbi) (hvar : lyTypeHasVar t = true)
    (hst : ∀ f ∈ t.fs, ∀ n vs bs, lyType ts f.ty = some n → st n vs bs →
      (bs.length : Int) = lyTypeSize ts lyLevels n)
    (hf : Variable f) {mid : List LyF} (hfs : t.fs = done ++ (mid ++ [f]))
    (hplace : InPlace ts t done off acc)
    (h : FieldsWrite st ex ts t (mid ++ [f]) vs env off acc out) :
    ∃ d front, vs.getLast? = some (.bytes d) ∧ out = front ++ d ∧
      (front.length : Int) = lyRoundExpr ts t (done ++ mid).length := by
  induction mid generalizing done vs env off acc with
  | nil =>
    have hok := hacc.field ht hfs
    have hrsv : f.rsv = 0 := by
      by_contra hrsv
      exact hf.1 (f.bare (Nat.pos_of_ne_zero hrsv)).2.2.2
    rw [List.nil_append] at h
    unfold FieldsWrite at h
    simp only [hrsv, Nat.lt_irrefl, gt_iff_lt, if_false] at h
    cases vs with
    | nil => exact h.elim
    | cons v vs =>
      obtain ⟨bs, hw, -, rfl, hout⟩ := h
      have hty := (hok.len_ne hrsv).1 hf.1
      obtain ⟨heq, hlen⟩ := hplace.pad hc (hacc.not_variable ht hc hfs) hfs
      cases hw with
      | int hbits =>
        rw [hty, lyIntBits_bytesTy] at hbits
        omega
      | bytes _ _ hn =>
        refine ⟨bs, acc ++ lyPad off (lyPlace ts t f off), rfl, ?_, ?_⟩
        · rw [hout, lyTail, if_neg (by simp [hvar]), List.append_nil]
        · rw [List.append_nil, hlen, heq]
      | nested _ hne => exact absurd hty hne
  | cons g mid ih =>
    have hg : g ∈ t.fs := by simp [hfs]
    have hfs' : t.fs = (done ++ [g]) ++ (mid ++ [f]) := by simp [hfs]
    have hok := hacc.field ht hfs
    rw [show done ++ g :: mid = (done ++ [g]) ++ mid by simp]
    rw [List.cons_append] at h
    unfold FieldsWrite at h
    by_cases hrsv : g.rsv > 0
    · simp only [if_pos hrsv] at h
      exact ih hfs' (hplace.step hfs hok fun _ _ => length_reserved ts hrsv) h
    · simp only [if_neg hrsv] at h
      cases vs with
      | nil => exact h.elim
      | cons v vs =>
        obtain ⟨bs, hw, -, h⟩ := h
        have hstep := hplace.step hfs hok fun hv _ => hw.length_eq hok (by omega) hv (hst g hg)
        obtain ⟨d, front, hlast, hout, hfront⟩ := ih hfs' hstep h
        refine ⟨d, front, ?_, hout, hfront⟩
        rw [List.getLast?_cons, hlast]
        rfl

/-! ## The round trip -/

/-- What `T_bytes` answers is parsed back; its length is the size and the lengths of the variable
fields, where these stand last; a flexible array member starts at its C offset; and what a packed
type's `T_parse` answers is written as the bytes it was read from. -/
theorem round_trip (ex : Exprs) (hacc : Accepted ts) (ht : t ∈ ts) :
    (∀ vs bs, Typed ts lyLevels t vs → lyBytes ex ts lyLevels t vs = .ok bs →
        bs.length ≤ listMax →
        lyParse ex ts t bs = .ok vs ∧
          (Straight ts lyLevels t → (t.kind = .cAbi → lyTypeHasVar t = false) →
            (bs.length : Int) = lyTypeSize ts lyLevels t + varLen ts lyLevels t vs) ∧
          (t.kind = .cAbi → lyTypeHasVar t = true → ∃ done f d front,
            t.fs = done ++ [f] ∧ Variable f ∧ vs.getLast? = some (.bytes d) ∧ bs = front ++ d ∧
              (front.length : Int) = lyRoundExpr ts t done.length)) ∧
      ∀ b vs, b.length ≤ listMax → t.kind ≠ .cAbi → NoReserved ts lyLevels t →
        lyParse ex ts t b = .ok vs → lyBytes ex ts lyLevels t vs = .ok b := by
  constructor
  · intro vs bs hvs hbytes hlen
    have hw := ((agrees_bytes hacc ht hvs).1 bs).1 hbytes
    refine ⟨?_, fun hs hvar => writes_length hacc ht hs hvar hw, ?_⟩
    · have hbound := writes_bounded hacc ht hw hlen
      obtain ⟨q, hstands, hq⟩ := writes_stand hacc ht hvs hw
        (show bs = [] ++ bs ++ [] by simp)
      rw [parse_ok hacc hbound hlen ht]
      exact ⟨q, hstands, fun hc => by rw [hq hc]; simp⟩
    · intro hc hvar
      obtain ⟨done, f, hfs, hv, -⟩ := hacc.size_le ht hc hvar
      have hst : ∀ f ∈ t.fs, ∀ n vs bs, lyType ts f.ty = some n →
          Writes ex ts 16 n vs bs → (bs.length : Int) = lyTypeSize ts lyLevels n := by
        intro f hf n vs bs hn hw
        obtain ⟨done, rest, hfs⟩ := List.append_of_mem hf
        obtain ⟨hkind, hfix⟩ := (hacc.field ht hfs).nested_fixed hn
        exact writes_length_c hacc (mem_of_lyType hn) (hkind.trans hc) (hfix hc) hw
      have hfields : FieldsWrite (Writes ex ts 16) ex ts t t.fs vs [] 0 [] bs := hw
      rw [hfs] at hfields
      obtain ⟨d, front, hlast, hout, hfront⟩ := fieldsWrite_flexible hacc ht hc hvar hst hv
        (by rw [hfs, List.nil_append]) .nil hfields
      exact ⟨done, f, d, front, hfs, hv, hlast, hout, hfront⟩
  · intro b vs hb hc hrsv hparse
    have hbound : Bounded ts lyLevels t := by
      obtain ⟨r, hr, -⟩ := Out.bind_ok.1 hparse
      exact (parse_bounded hacc hb ht hc le_rfl hr).2
    obtain ⟨q, hstands, hq⟩ := (parse_ok hacc hbound hb ht vs).1 hparse
    obtain ⟨-, -, hvs, hw⟩ := stands_write hacc hb ht hc hrsv hstands
    rw [hq hc] at hw
    have hwhole : (b.drop 0).take (b.length - 0) = b := by simp
    rw [hwhole] at hw
    exact ((agrees_bytes hacc ht hvs).1 b).2 hw

theorem round_trip_signed :
    lyParse plainExprs [signedLen] signedLen [2, 7, 9] = .ok [.int 2, .bytes [7, 9]] ∧
      (([2, 7, 9] : List UInt8).length : Int) = lyTypeSize [signedLen] lyLevels signedLen +
        varLen [signedLen] lyLevels signedLen [.int 2, .bytes [7, 9]] ∧
      lyBytes plainExprs [signedLen] lyLevels signedLen [.int 2, .bytes [7, 9]] = .ok [2, 7, 9] := by
  have hacc : Accepted [signedLen] := layouts_accepted.1.1
  have hmem : signedLen ∈ [signedLen] := List.mem_singleton.2 rfl
  have hvs : Typed [signedLen] lyLevels signedLen [.int 2, .bytes [7, 9]] :=
    ⟨.int (by decide) 2 (by decide), .bytes rfl [7, 9] (by decide), rfl⟩
  have hnested : ∀ f ∈ signedLen.fs, ∀ n, lyType [signedLen] f.ty = some n → False := by
    intro f hf n hn
    obtain ⟨-, -, -, -, hnone, -⟩ := layouts_accepted
    have hf' := List.all_eq_true.1 hnone f hf
    rw [hn] at hf'
    cases hf'
  have hstraight : Straight [signedLen] lyLevels signedLen := by
    refine ⟨?_, fun f hf n hn => (hnested f hf n hn).elim⟩
    intro done f rest hfs hvar
    match done with
    | [] =>
      cases hfs
      exact absurd hvar (by decide)
    | [_] =>
      cases hfs
      rfl
    | _ :: _ :: done => cases done <;> cases hfs
  have hrsv : NoReserved [signedLen] lyLevels signedLen := by
    intro f hf
    refine ⟨?_, fun n hn => (hnested f hf n hn).elim⟩
    rcases List.mem_cons.1 hf with rfl | hf
    · rfl
    · rw [List.mem_singleton.1 hf]
      rfl
  obtain ⟨hforward, hback⟩ := round_trip plainExprs hacc hmem
  obtain ⟨hparse, hlen, -⟩ := hforward _ [2, 7, 9] hvs (by rfl) (by decide)
  exact ⟨hparse, hlen hstraight (by decide), hback _ _ (by decide) (by decide) hrsv hparse⟩

/-- With a variable field in the middle the size is -1, which is no part of the length. -/
theorem size_of_middle :
    Accepted [middle] ∧ Typed [middle] lyLevels middle [.int 1, .bytes [7], .int 9] ∧
      lyBytes plainExprs [middle] lyLevels middle [.int 1, .bytes [7], .int 9] = .ok [1, 7, 9] ∧
      lyTypeSize [middle] lyLevels middle = -1 ∧
      (([1, 7, 9] : List UInt8).length : Int) ≠ lyTypeSize [middle] lyLevels middle +
        varLen [middle] lyLevels middle [.int 1, .bytes [7], .int 9] := by
  obtain ⟨-, -, -, hacc, -, hsize, hlen⟩ := layouts_accepted
  refine ⟨hacc, ?_, by rfl, hsize, hlen⟩
  exact ⟨.int (by decide) 1 (by decide), .bytes rfl [7] (by decide), .int (by decide) 9 (by decide),
    rfl⟩

end Layout
