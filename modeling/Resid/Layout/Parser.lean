import Resid.Layout.Stands

/-!
# The parser reads what stands

    Accepted ts → Bounded ts lyLevels t → b.length ≤ listMax → t ∈ ts →
      lyParse ex ts t b = ok vs ↔ ∃ q, Stands ex ts b lyLevels t 0 vs q ∧ …            (parse_ok)
      lyParse ex ts t b = abort ↔ Traps ex ts b lyLevels t 0                        (parse_abort)
-/

namespace Layout

open Runtime CheckedInt

variable {ex : Exprs} {ts : List LyT} {b : List UInt8} {t : LyT} {f : LyF} {done : List LyF}
  {env : Env}

/-! ## One field -/

/-- A step answers what stands and aborts where it traps. -/
structure Agrees (x : Out (Env × Int)) (stands : Env → Nat → Prop) (traps : Prop) : Prop where
  ok : ∀ e q, x = .ok (e, q) ↔ ∃ m : Nat, q = m ∧ stands e m
  abort : x = .abort ↔ traps

theorem agrees_err {stands : Env → Nat → Prop} {traps : Prop} (d : DeviceError)
    (hs : ∀ e m, ¬ stands e m) (ht : ¬ traps) : Agrees (.err d) stands traps := by
  constructor
  · intro e q
    simp [hs]
  · simp [ht]

theorem agrees_abort {stands : Env → Nat → Prop} {traps : Prop} (hs : ∀ e m, ¬ stands e m)
    (ht : traps) : Agrees .abort stands traps := by
  constructor
  · intro e q
    simp [hs]
  · simp [ht]

section Kinds

variable {sub : LyT → Int → Out At} {st : LyT → Nat → List Val → Nat → Prop}
  {tr : LyT → Nat → Prop} {start : Nat}

theorem addI_near {a : Nat} {n : Int} (ha : a < 2 ^ 48) (hlo : 0 ≤ n) (hhi : n < 2 ^ 48) :
    addI a n = .ok (a + n) := by
  apply addI_of_fits
  rw [fits_64]
  omega

theorem agrees_reserved (hstart : start < 2 ^ 48) (hrsv : 0 < f.rsv) (hsize : (f.rsv : Int) < 2 ^ 48) :
    Agrees (lyParseField sub ex ts t b done f env start) (FieldStands st ex ts b t f env start)
      (FieldTraps st tr ex ts b t f env start) := by
  have htrap : ¬ FieldTraps st tr ex ts b t f env start := by
    rintro (⟨h, -⟩ | ⟨hvar, -⟩ | ⟨h, -⟩)
    · omega
    · exact hvar.1 (f.bare hrsv).2.2.2
    · omega
  unfold lyParseField
  rw [if_pos hrsv, addI_near hstart (Int.natCast_nonneg f.rsv) hsize, Out.ok_bind]
  split_ifs with hlong
  · apply agrees_err _ _ htrap
    rintro e m (⟨-, hq⟩ | ⟨h, -⟩)
    · omega
    · omega
  · constructor
    · intro e q
      constructor
      · rintro h
        cases h
        exact ⟨start + f.rsv, by omega, .reserved hrsv (by omega)⟩
      · rintro ⟨m, rfl, ⟨-, -⟩ | ⟨h, -⟩⟩
        · rw [Int.natCast_add]
          rfl
        · omega
    · simp [htrap]

/-- Only a failed condition traps. -/
def OnlyArgs (st : LyT → Nat → List Val → Nat → Prop) (tr : LyT → Nat → Prop) (ex : Exprs)
    (ts : List LyT) (b : List UInt8) (t : LyT) (f : LyF) (env : Env) (start : Nat) : Prop :=
  FieldTraps st tr ex ts b t f env start → ∃ v q,
    ValueStands st ts b t f env start v q ∧ ArgTraps ex f (env ++ [(f.name, v)])

/-- No value stands there: the error is the only outcome. -/
theorem agrees_no_value (hrsv : f.rsv = 0) (hargs : OnlyArgs st tr ex ts b t f env start)
    (hnone : ∀ v q, ¬ ValueStands st ts b t f env start v q) (d : DeviceError) :
    Agrees (.err d) (FieldStands st ex ts b t f env start)
      (FieldTraps st tr ex ts b t f env start) := by
  apply agrees_err
  · rintro e m (⟨h, -⟩ | ⟨-, v, _, hv, -⟩)
    · omega
    · exact hnone v m hv
  · intro htrap
    obtain ⟨v, q, hv, -⟩ := hargs htrap
    exact hnone v q hv

/-- A value was read: the conditions decide. -/
theorem agrees_bind (hrsv : f.rsv = 0) (hargs : OnlyArgs st tr ex ts b t f env start) {v : Val}
    {q : Nat} (hv : ∀ w m, ValueStands st ts b t f env start w m ↔ w = v ∧ m = q) {dflt : Str} :
    Agrees (lyBind ex t f env dflt v >>= fun env' => pure (env', (q : Int)))
      (FieldStands st ex ts b t f env start) (FieldTraps st tr ex ts b t f env start) := by
  constructor
  · intro e r
    simp only [Out.bind_ok, lyBind_ok, Out.pure_eq]
    constructor
    · rintro ⟨_, ⟨rfl, hpass⟩, hpair⟩
      cases hpair
      exact ⟨q, rfl, .value hrsv v q ((hv v q).2 ⟨rfl, rfl⟩) hpass⟩
    · rintro ⟨m, rfl, ⟨h, -⟩ | ⟨-, w, _, hw, hpass⟩⟩
      · omega
      · obtain ⟨rfl, rfl⟩ := (hv w m).1 hw
        exact ⟨_, ⟨rfl, hpass⟩, rfl⟩
  · rw [Out.bind_abort, lyBind_abort]
    constructor
    · rintro (harg | ⟨_, -, h⟩)
      · exact .args hrsv v q ((hv v q).2 ⟨rfl, rfl⟩) harg
      · cases h
    · intro htrap
      obtain ⟨w, m, hw, harg⟩ := hargs htrap
      obtain ⟨rfl, rfl⟩ := (hv w m).1 hw
      exact .inl harg

theorem agrees_int (hb : b.length ≤ listMax) (hstart : start < 2 ^ 48)
    (hrsv : f.rsv = 0) (hbits : 0 < lyIntBits f.ty) (hlen : f.len = []) :
    Agrees (lyParseField sub ex ts t b done f env start) (FieldStands st ex ts b t f env start)
      (FieldTraps st tr ex ts b t f env start) := by
  have hnty : f.ty ≠ bytesTy := by
    intro h
    rw [h, lyIntBits_bytesTy] at hbits
    omega
  have height := bytes_le_eight f.ty
  have hargs : OnlyArgs st tr ex ts b t f env start := by
    rintro (⟨-, v, q, hv, harg⟩ | ⟨hvar, -⟩ | ⟨-, h, -⟩)
    · exact ⟨v, q, hv, harg⟩
    · exact absurd hlen hvar.1
    · omega
  unfold lyParseField lyParseInt
  rw [if_neg (by omega), if_pos hbits, addI_near hstart (Int.natCast_nonneg _) (by omega),
    Out.ok_bind]
  by_cases hlong : (start : Int) + (lyIntBits f.ty / 8 : Nat) > b.length
  · rw [if_pos hlong]
    apply agrees_no_value hrsv hargs
    rintro v q (⟨-, hq⟩ | ⟨hty, -⟩ | ⟨h, -⟩)
    · omega
    · exact hnty hty
    · omega
  · have hq : start + lyIntBits f.ty / 8 ≤ b.length := by omega
    rw [if_neg hlong, lyRd_eq hq hb height, Out.ok_bind, ← Int.natCast_add]
    apply agrees_bind hrsv hargs
    intro w m
    constructor
    · rintro (⟨-, hq⟩ | ⟨hty, -⟩ | ⟨h, -⟩)
      · exact ⟨rfl, rfl⟩
      · exact absurd hty hnty
      · omega
    · rintro ⟨rfl, rfl⟩
      exact .int hbits hq

theorem slice_eq (b : List UInt8) (start n : Nat) :
    slice b start ((start + n : Nat) : Int) = (b.drop start).take n := by
  unfold slice
  rw [Int.toNat_natCast, Int.toNat_natCast, Nat.add_sub_cancel_left]

/-- The bytes of a field whose length is known. -/
theorem agrees_take (hstart : start < 2 ^ 48) (hrsv : f.rsv = 0) (hty : f.ty = bytesTy)
    (hargs : OnlyArgs st tr ex ts b t f env start) {n : Nat} (hn : lyLen f env = n)
    (hsize : n < 2 ^ 48) :
    Agrees (lyTake ex t b f env start n) (FieldStands st ex ts b t f env start)
      (FieldTraps st tr ex ts b t f env start) := by
  have hbits : lyIntBits f.ty = 0 := by rw [hty, lyIntBits_bytesTy]
  unfold lyTake
  rw [addI_near hstart (Int.natCast_nonneg n) (by omega), Out.ok_bind]
  by_cases hlong : (start : Int) + (n : Int) > b.length
  · rw [if_pos hlong]
    apply agrees_no_value hrsv hargs
    rintro v q (⟨h, -⟩ | ⟨-, m, hm, hq⟩ | ⟨-, h, -⟩)
    · omega
    · omega
    · exact h hty
  · rw [if_neg hlong, ← Int.natCast_add, slice_eq]
    apply agrees_bind hrsv hargs
    intro w m
    constructor
    · rintro (⟨h, -⟩ | ⟨-, k, hk, hq⟩ | ⟨-, h, -⟩)
      · omega
      · obtain rfl : k = n := by omega
        exact ⟨rfl, rfl⟩
      · exact absurd hty h
    · rintro ⟨rfl, rfl⟩
      exact .bytes hty n hn (by omega)

theorem agrees_fixed (hstart : start < 2 ^ 48) (hrsv : f.rsv = 0) (hty : f.ty = bytesTy)
    (hint : strIsInt f.len = true) (hn : 0 ≤ strParseInt f.len)
    (hsize : strParseInt f.len < 2 ^ 48) :
    Agrees (lyParseField sub ex ts t b done f env start) (FieldStands st ex ts b t f env start)
      (FieldTraps st tr ex ts b t f env start) := by
  have hbits : lyIntBits f.ty = 0 := by rw [hty, lyIntBits_bytesTy]
  have hargs : OnlyArgs st tr ex ts b t f env start := by
    rintro (⟨-, v, q, hv, harg⟩ | ⟨hvar, -⟩ | ⟨-, -, h, -⟩)
    · exact ⟨v, q, hv, harg⟩
    · exact absurd hint (by simp [hvar.2])
    · exact absurd hty h
  have hlen : lyLen f env = (strParseInt f.len).toNat := by
    unfold lyLen
    rw [if_pos hint]
    omega
  unfold lyParseField lyParseBytes
  rw [if_neg (by omega), if_neg (by omega), if_pos hty, if_pos hint,
    ← Int.toNat_of_nonneg hn]
  exact agrees_take hstart hrsv hty hargs hlen (by omega)

theorem toU64_of_nonneg {n : Int} (hlo : 0 ≤ n) (hhi : n < 2 ^ 64) : toU64 n = .ok n.toNat :=
  if_pos ⟨hlo, hhi⟩

theorem toU64_of_neg {n : Int} (h : n < 0) : toU64 n = .abort := if_neg (by omega)

theorem agrees_var (hb : b.length ≤ listMax) (hstart : start < 2 ^ 48) (henv : EnvOk done env)
    (hrsv : f.rsv = 0) (hty : f.ty = bytesTy) (hlen : f.len ≠ []) (hint : strIsInt f.len = false)
    {lf : LyF} (hlf : lyField done f.len = some lf) (hlbits : 0 < lyIntBits lf.ty) :
    Agrees (lyParseField sub ex ts t b done f env start) (FieldStands st ex ts b t f env start)
      (FieldTraps st tr ex ts b t f env start) := by
  unfold listMax at hb
  have hbits : lyIntBits f.ty = 0 := by rw [hty, lyIntBits_bytesTy]
  have hrange := henv.len hlf hlbits
  have hlyLen : lyLen f env = lyInt env f.len := if_neg (by simp [hint])
  have hcases : FieldTraps st tr ex ts b t f env start →
      (∃ v q, ValueStands st ts b t f env start v q ∧ ArgTraps ex f (env ++ [(f.name, v)])) ∨
        (0 ≤ lyLen f env ∧ b.length < start) := by
    rintro (⟨-, v, q, hv, harg⟩ | ⟨-, hn, hgap⟩ | ⟨-, -, h, -⟩)
    · exact .inl ⟨v, q, hv, harg⟩
    · exact .inr ⟨hn, hgap⟩
    · exact absurd hty h
  have hfit : ∀ v q, ValueStands st ts b t f env start v q →
      0 ≤ lyInt env f.len ∧ start + lyInt env f.len ≤ b.length := by
    rintro v q (⟨h, -⟩ | ⟨-, n, hn, hq⟩ | ⟨-, h, -⟩)
    · omega
    · omega
    · exact absurd hty h
  unfold lyParseField lyParseBytes lyVarLen
  rw [if_neg (by omega), if_neg (by omega), if_pos hty, if_neg (by simp [hint]), hlf]
  rcases Int.lt_or_le (lyInt env f.len) 0 with hneg | hpos
  · have hcond : (Option.any (fun lf => lySigned lf.ty) (some lf) &&
        decide (lyInt env f.len < 0)) = true := by
      simp [hrange.signed hneg, hneg]
    rw [if_pos hcond, Out.err_bind]
    apply agrees_no_value hrsv
    · intro htrap
      rcases hcases htrap with hargs | ⟨hn, -⟩
      · exact hargs
      · omega
    · intro v q hv
      have := (hfit v q hv).1
      omega
  · have hcond : ¬ (Option.any (fun lf => lySigned lf.ty) (some lf) &&
        decide (lyInt env f.len < 0)) = true := by
      simp [hpos]
    have hsub : Out.checked (CheckedInt.sub 64 (b.length : Int) start) =
        .ok ((b.length : Int) - start) := by
      rw [sub_of_fits (by rw [fits_64]; omega)]
      rfl
    rw [if_neg hcond, toU64_of_nonneg hpos hrange.lt, Out.ok_bind, hsub, Out.ok_bind]
    by_cases hgap : b.length < start
    · rw [toU64_of_neg (by omega), Out.abort_bind, Out.abort_bind]
      apply agrees_abort
      · rintro e m (⟨h, -⟩ | ⟨-, v, _, hv, -⟩)
        · omega
        · have := (hfit v m hv).2
          omega
      · exact .gap ⟨hlen, hint⟩ (by omega) hgap
    · have hargs : OnlyArgs st tr ex ts b t f env start := by
        intro htrap
        rcases hcases htrap with hargs | ⟨-, h⟩
        · exact hargs
        · exact absurd h hgap
      rw [toU64_of_nonneg (by omega) (by omega), Out.ok_bind]
      by_cases hlong : (lyInt env f.len).toNat > ((b.length : Int) - start).toNat
      · rw [if_pos hlong, Out.err_bind]
        apply agrees_no_value hrsv hargs
        intro v q hv
        have := (hfit v q hv).2
        omega
      · rw [if_neg hlong, toInt_of_fits (by rw [fits_64]; omega), Out.ok_bind,
          ← Int.toNat_of_nonneg hpos]
        exact agrees_take hstart hrsv hty hargs (by omega) (by omega)

/-- What a nested parser answers is what stands, and it aborts at its traps. -/
def SubAgrees (sub : LyT → Int → Out At) (st : LyT → Nat → List Val → Nat → Prop)
    (tr : LyT → Nat → Prop) (n : LyT) : Prop :=
  ∀ p : Nat, (∀ r, sub n p = .ok r ↔ ∃ q : Nat, r.stop = q ∧ st n p r.v q) ∧
    (sub n p = .abort ↔ tr n p)

theorem agrees_nested (hrsv : f.rsv = 0) (hbits : lyIntBits f.ty = 0) (hty : f.ty ≠ bytesTy)
    (hlen : f.len = []) {n : LyT} (hn : lyType ts f.ty = some n) (hsub : SubAgrees sub st tr n) :
    Agrees (lyParseField sub ex ts t b done f env start) (FieldStands st ex ts b t f env start)
      (FieldTraps st tr ex ts b t f env start) := by
  obtain ⟨hok, habort⟩ := hsub start
  have hvalue : ∀ v q, ValueStands st ts b t f env start v q ↔
      ∃ vs, v = .record vs ∧ st n start vs q := by
    intro v q
    constructor
    · rintro (⟨h, -⟩ | ⟨h, -⟩ | ⟨-, -, m, hm, vs, _, h⟩)
      · omega
      · exact absurd h hty
      · rw [hn] at hm
        cases hm
        exact ⟨vs, rfl, h⟩
    · rintro ⟨vs, rfl, h⟩
      exact .nested hbits hty n hn vs q h
  unfold lyParseField lyParseNested
  rw [if_neg (by omega), if_neg (by omega), if_neg hty, hn]
  constructor
  · intro e r
    simp only [Out.bind_ok, lyBind_ok, Out.pure_eq]
    constructor
    · rintro ⟨x, hx, _, ⟨rfl, hpass⟩, hpair⟩
      obtain ⟨q, hq, hst⟩ := (hok x).1 hx
      cases hpair
      exact ⟨q, hq, .value hrsv _ q ((hvalue _ q).2 ⟨x.v, rfl, hst⟩) hpass⟩
    · rintro ⟨m, rfl, ⟨h, -⟩ | ⟨-, w, _, hw, hpass⟩⟩
      · omega
      · obtain ⟨vs, rfl, hst⟩ := (hvalue w m).1 hw
        exact ⟨⟨vs, m⟩, (hok ⟨vs, m⟩).2 ⟨m, rfl, hst⟩, _, ⟨rfl, hpass⟩, rfl⟩
  · simp only [Out.bind_abort, lyBind_abort, habort, Out.pure_eq]
    constructor
    · rintro (h | ⟨x, hx, harg | ⟨_, -, h⟩⟩)
      · exact .nested hrsv hbits hty n hn h
      · obtain ⟨q, -, hst⟩ := (hok x).1 hx
        exact .args hrsv _ q ((hvalue _ q).2 ⟨x.v, rfl, hst⟩) harg
      · cases h
    · rintro (⟨-, v, q, hv, harg⟩ | ⟨hvar, -⟩ | ⟨-, -, -, m, hm, h⟩)
      · obtain ⟨vs, rfl, hst⟩ := (hvalue v q).1 hv
        exact .inr ⟨⟨vs, q⟩, (hok _).2 ⟨q, rfl, hst⟩, .inl harg⟩
      · exact absurd hlen hvar.1
      · rw [hn] at hm
        cases hm
        exact .inl h

theorem agrees_field (hacc : Accepted ts) (hsized : Sized ts t) (hb : b.length ≤ listMax)
    (ht : t ∈ ts) {rest : List LyF} (hfs : t.fs = done ++ f :: rest) (hstart : start < 2 ^ 48)
    (henv : EnvOk done env) (hsub : ∀ n, lyType ts f.ty = some n → SubAgrees sub st tr n) :
    Agrees (lyParseField sub ex ts t b done f env start) (FieldStands st ex ts b t f env start)
      (FieldTraps st tr ex ts b t f env start) := by
  have hf : f ∈ t.fs := by simp [hfs]
  cases hacc.field ht hfs with
  | reserved hrsv =>
    have hsize := hsized.reserved f hf
    exact agrees_reserved hstart hrsv (by omega)
  | int hrsv hbits hlen => exact agrees_int hb hstart hrsv hbits hlen
  | fixed hrsv hty hint hn =>
    have hsize := hsized.fixed f hf hty hint
    exact agrees_fixed hstart hrsv hty hint hn (by omega)
  | var hrsv hty hlen hint lf hlf hbits =>
    exact agrees_var hb hstart henv hrsv hty hlen hint hlf hbits
  | nested hrsv hbits hty hlen n hn => exact agrees_nested hrsv hbits hty hlen hn (hsub n hn)

end Kinds

/-! ## All fields -/

variable {base p q : Nat} {e : Env}

theorem lyFieldStart_eq (hacc : Accepted ts) (hsized : Sized ts t) (ht : t ∈ ts) {rest : List LyF}
    (hfs : t.fs = done ++ f :: rest) (hbase : base ≤ listMax) :
    lyFieldStart ts t base done.length p = .ok (lyStart ts t base done.length p : Int) := by
  unfold lyFieldStart lyStart
  unfold listMax at hbase
  split_ifs with hc
  · have hlo := lyRoundExpr_nonneg hacc ht hc hfs
    have hhi := hsized.offset hc done f rest hfs
    rw [addI_near (by omega) hlo (by omega)]
    congr 1
    omega
  · rfl

theorem lyStart_lt (hacc : Accepted ts) (hsized : Sized ts t) (ht : t ∈ ts) {rest : List LyF}
    (hfs : t.fs = done ++ f :: rest) (hbase : base ≤ listMax) (hp : t.kind ≠ .cAbi → p ≤ listMax) :
    lyStart ts t base done.length p < 2 ^ 48 := by
  unfold lyStart
  unfold listMax at hbase hp
  split_ifs with hc
  · have hlo := lyRoundExpr_nonneg hacc ht hc hfs
    have hhi := hsized.offset hc done f rest hfs
    omega
  · have := hp hc
    omega

theorem ValueStands.int_inRange {st : LyT → Nat → List Val → Nat → Prop} {v : Val}
    (h : ValueStands st ts b t f env p v q) (hbits : 0 < lyIntBits f.ty) :
    ∃ n, v = .int n ∧ InRange f.ty n := by
  cases h with
  | int _ hq =>
    refine ⟨_, rfl, decode_inRange ?_ _⟩
    rw [List.length_take, List.length_drop]
    omega
  | bytes hty =>
    rw [hty, lyIntBits_bytesTy] at hbits
    omega
  | nested hzero => omega

theorem FieldStands.env_ok {st : LyT → Nat → List Val → Nat → Prop}
    (h : FieldStands st ex ts b t f env p e q) (henv : EnvOk done env) : EnvOk (done ++ [f]) e := by
  cases h with
  | reserved hrsv => exact henv.reserved hrsv
  | value hrsv v q hv => exact henv.value hv.int_inRange

theorem FieldStands.stop_le {st : LyT → Nat → List Val → Nat → Prop} {last : Bool}
    (h : FieldStands st ex ts b t f env p e q) (hok : FieldOk ts t done f last)
    (hc : t.kind ≠ .cAbi) (hst : ∀ n ∈ ts, ∀ vs p q, n.kind ≠ .cAbi → st n p vs q → q ≤ b.length) :
    q ≤ b.length := by
  cases h with
  | reserved hrsv hq => exact hq
  | value hrsv v q hv =>
    cases hv with
    | int hbits hq => exact hq
    | bytes hty n hn hq => exact hq
    | nested hbits hty n hn vs q h =>
      have hkind := hok.kind_eq hn
      exact hst n (mem_of_lyType hn) vs p q (by rwa [hkind]) h

theorem agrees_fields {sub : LyT → Int → Out At} {st : LyT → Nat → List Val → Nat → Prop}
    {tr : LyT → Nat → Prop} (hacc : Accepted ts) (hsized : Sized ts t) (hb : b.length ≤ listMax)
    (ht : t ∈ ts) (hbase : base ≤ listMax)
    (hsub : ∀ f ∈ t.fs, ∀ n, lyType ts f.ty = some n → SubAgrees sub st tr n)
    (hst : ∀ n ∈ ts, ∀ vs p q, n.kind ≠ .cAbi → st n p vs q → q ≤ b.length) {fs : List LyF}
    (hfs : t.fs = done ++ fs) (henv : EnvOk done env) (hp : t.kind ≠ .cAbi → p ≤ listMax) :
    Agrees (lyParseFields sub ex ts t b base done fs env p)
      (FieldsStand st ex ts b t base done.length fs env p)
      (FieldsTrap st tr ex ts b t base done.length fs env p) := by
  induction fs generalizing done env p with
  | nil =>
    constructor
    · intro e q
      constructor
      · rintro h
        cases h
        exact ⟨p, rfl, rfl, rfl⟩
      · rintro ⟨m, rfl, rfl, rfl⟩
        rfl
    · simp [lyParseFields, FieldsTrap]
  | cons f fs ih =>
    have hf : f ∈ t.fs := by simp [hfs]
    have hfield : Agrees (lyParseField sub ex ts t b done f env
        (lyStart ts t base done.length p : Nat))
        (FieldStands st ex ts b t f env (lyStart ts t base done.length p))
        (FieldTraps st tr ex ts b t f env (lyStart ts t base done.length p)) :=
      agrees_field hacc hsized hb ht hfs (lyStart_lt hacc hsized ht hfs hbase hp) henv
        (hsub f hf)
    have hrest : ∀ e m, FieldStands st ex ts b t f env (lyStart ts t base done.length p) e m →
        Agrees (lyParseFields sub ex ts t b base (done ++ [f]) fs e m)
          (FieldsStand st ex ts b t base (done.length + 1) fs e m)
          (FieldsTrap st tr ex ts b t base (done.length + 1) fs e m) := by
      intro e m h
      have hfs' : t.fs = (done ++ [f]) ++ fs := by simp [hfs]
      have hnext := ih hfs' (h.env_ok henv) fun hc =>
        (h.stop_le (hacc.field ht hfs) hc hst).trans hb
      rwa [List.length_append] at hnext
    rw [lyParseFields, lyFieldStart_eq hacc hsized ht hfs hbase, Out.ok_bind]
    constructor
    · intro e q
      rw [Out.bind_ok]
      constructor
      · rintro ⟨⟨e', q'⟩, hx, hy⟩
        obtain ⟨m, rfl, hstand⟩ := (hfield.ok e' q').1 hx
        obtain ⟨k, rfl, hmore⟩ := ((hrest e' m hstand).ok e q).1 hy
        exact ⟨k, rfl, e', m, hstand, hmore⟩
      · rintro ⟨k, rfl, e', m, hstand, hmore⟩
        exact ⟨(e', m), (hfield.ok e' m).2 ⟨m, rfl, hstand⟩,
          ((hrest e' m hstand).ok e k).2 ⟨k, rfl, hmore⟩⟩
    · rw [Out.bind_abort, hfield.abort]
      constructor
      · rintro (htrap | ⟨⟨e', q'⟩, hx, hy⟩)
        · exact .inl htrap
        · obtain ⟨m, rfl, hstand⟩ := (hfield.ok e' q').1 hx
          exact .inr ⟨e', m, hstand, (hrest e' m hstand).abort.1 hy⟩
      · rintro (htrap | ⟨e', m, hstand, hmore⟩)
        · exact .inl htrap
        · exact .inr ⟨(e', m), (hfield.ok e' m).2 ⟨m, rfl, hstand⟩,
            (hrest e' m hstand).abort.2 hmore⟩

/-! ## Records -/

theorem FieldsStand.stop_le {st : LyT → Nat → List Val → Nat → Prop} (hacc : Accepted ts)
    (ht : t ∈ ts) (hc : t.kind ≠ .cAbi)
    (hst : ∀ n ∈ ts, ∀ vs p q, n.kind ≠ .cAbi → st n p vs q → q ≤ b.length) {i : Nat}
    {fs : List LyF} (hfs : t.fs = done ++ fs) (h : FieldsStand st ex ts b t base i fs env p e q)
    (hp : p ≤ b.length) : q ≤ b.length := by
  induction fs generalizing done i p env with
  | nil =>
    obtain ⟨-, rfl⟩ := h
    exact hp
  | cons f fs ih =>
    obtain ⟨e', m, hfield, hmore⟩ := h
    have hm := hfield.stop_le (hacc.field ht hfs) hc hst
    have hfs' : t.fs = (done ++ [f]) ++ fs := by simp [hfs]
    exact ih hfs' hmore hm

theorem Stands.stop_le (hacc : Accepted ts) {left : Nat} :
    ∀ t ∈ ts, ∀ vs p q, t.kind ≠ .cAbi → Stands ex ts b left t p vs q → q ≤ b.length := by
  induction left with
  | zero => exact fun _ _ _ _ _ _ h => h.elim
  | succ left ih =>
    rintro t ht vs p q hc ⟨hp, env, m, hfields, -, rfl⟩
    unfold lyStop
    rw [if_neg hc]
    exact hfields.stop_le hacc ht hc ih (List.nil_append t.fs).symm hp

theorem lyRecordStop_eq (hacc : Accepted ts) (hsized : Sized ts t) (ht : t ∈ ts)
    (hbase : base ≤ listMax) : lyRecordStop ts t base p = .ok (lyStop ts t base p : Int) := by
  unfold lyRecordStop lyStop
  unfold listMax at hbase
  split_ifs with hc
  · have hlo := (hacc.size_bounds ht hc).1
    have hhi := hsized.size hc
    rw [addI_near (by omega) hlo (by omega), Out.ok_bind, Out.pure_eq]
    congr 1
    split_ifs <;> omega
  · rfl

/-- The parser answers exactly what stands, and aborts exactly at the traps. -/
theorem agrees_record (hacc : Accepted ts) (hb : b.length ≤ listMax) {left : Nat} (ht : t ∈ ts)
    (hw : Within ts left t) (hbound : Bounded ts left t) :
    SubAgrees (lyParseAt ex ts b left) (Stands ex ts b left) (Traps ex ts b left) t := by
  induction left generalizing t with
  | zero => exact hw.elim
  | succ left ih =>
    obtain ⟨hsized, hnested⟩ := hbound
    intro p
    rw [lyParseAt]
    by_cases hp : p ≤ b.length
    · have hin : ¬ ((p : Int) < 0 ∨ (p : Int) > b.length) := by omega
      have hsub : ∀ f ∈ t.fs, ∀ n, lyType ts f.ty = some n →
          SubAgrees (lyParseAt ex ts b left) (Stands ex ts b left) (Traps ex ts b left) n :=
        fun f hf n hn => ih (mem_of_lyType hn) (hw f hf n hn) (hnested f hf n hn)
      have hfields : Agrees (lyParseFields (lyParseAt ex ts b left) ex ts t b p [] t.fs [] p)
          (FieldsStand (Stands ex ts b left) ex ts b t p 0 t.fs [] p)
          (FieldsTrap (Stands ex ts b left) (Traps ex ts b left) ex ts b t p 0 t.fs [] p) :=
        agrees_fields hacc hsized hb ht (hp.trans hb) hsub (Stands.stop_le hacc)
          (List.nil_append t.fs).symm EnvOk.nil fun _ => hp.trans hb
      rw [if_neg hin]
      constructor
      · intro r
        rw [Out.bind_ok]
        constructor
        · rintro ⟨⟨e, q⟩, hx, hy⟩
          obtain ⟨m, rfl, hstand⟩ := (hfields.ok e q).1 hx
          rw [lyRecordStop_eq hacc hsized ht (hp.trans hb), Out.ok_bind] at hy
          cases hy
          exact ⟨_, rfl, hp, e, m, hstand, rfl, rfl⟩
        · rintro ⟨q, hq, -, e, m, hstand, hv, rfl⟩
          refine ⟨(e, m), (hfields.ok e m).2 ⟨m, rfl, hstand⟩, ?_⟩
          rw [lyRecordStop_eq hacc hsized ht (hp.trans hb), Out.ok_bind, ← hv, ← hq]
          rfl
      · rw [Out.bind_abort, hfields.abort]
        constructor
        · rintro (h | ⟨⟨e, q⟩, hx, hy⟩)
          · exact ⟨hp, h⟩
          · obtain ⟨m, rfl, -⟩ := (hfields.ok e q).1 hx
            rw [lyRecordStop_eq hacc hsized ht (hp.trans hb)] at hy
            cases hy
        · rintro ⟨-, h⟩
          exact .inl h
    · rw [if_pos (by omega)]
      constructor
      · intro r
        constructor
        · rintro h
          cases h
        · rintro ⟨q, -, h, -⟩
          exact absurd h hp
      · constructor
        · rintro h
          cases h
        · rintro ⟨h, -⟩
          exact absurd h hp

/-- `T_parse_at` at any offset. -/
theorem parseAt_abort (hacc : Accepted ts) (hbound : Bounded ts lyLevels t)
    (hb : b.length ≤ listMax) (ht : t ∈ ts) (at' : Int) :
    lyParseAt ex ts b lyLevels t at' = .abort ↔ 0 ≤ at' ∧ Traps ex ts b lyLevels t at'.toNat := by
  rcases Int.lt_or_le at' 0 with hneg | hpos
  · have herr : lyParseAt ex ts b lyLevels t at' =
        .err (badReply t.name "offset outside the bytes".toList) := if_pos (.inl hneg)
    rw [herr]
    constructor
    · rintro h
      cases h
    · rintro ⟨h, -⟩
      omega
  · have h := (@agrees_record ex ts b t hacc hb lyLevels ht (hacc.within ht) hbound at'.toNat).2
    rw [Int.toNat_of_nonneg hpos] at h
    rw [h]
    exact ⟨fun h => ⟨hpos, h⟩, fun h => h.2⟩

/-- `T_parse` aborts where the record at the start traps. -/
theorem parse_abort (hacc : Accepted ts) (hbound : Bounded ts lyLevels t) (hb : b.length ≤ listMax)
    (ht : t ∈ ts) : lyParse ex ts t b = .abort ↔ Traps ex ts b lyLevels t 0 := by
  have hat := @parseAt_abort ex ts b t hacc hbound hb ht 0
  unfold lyParse
  rw [Out.bind_abort, hat]
  constructor
  · rintro (⟨-, h⟩ | ⟨r, -, h⟩)
    · exact h
    · split_ifs at h
  · exact fun h => .inl ⟨le_rfl, h⟩

/-- `T_parse` answers the record at the start; packed bytes end with it. -/
theorem parse_ok (hacc : Accepted ts) (hbound : Bounded ts lyLevels t) (hb : b.length ≤ listMax)
    (ht : t ∈ ts) (vs : List Val) :
    lyParse ex ts t b = .ok vs ↔
      ∃ q, Stands ex ts b lyLevels t 0 vs q ∧ (t.kind ≠ .cAbi → q = b.length) := by
  have hat := (@agrees_record ex ts b t hacc hb lyLevels ht (hacc.within ht) hbound 0).1
  unfold lyParse
  rw [Out.bind_ok]
  constructor
  · rintro ⟨r, hr, hvs⟩
    obtain ⟨q, hq, hstands⟩ := (hat r).1 hr
    split_ifs at hvs with hstop
    cases hvs
    refine ⟨q, hstands, fun hc => ?_⟩
    by_contra hne
    exact hstop ⟨hc, by omega⟩
  · rintro ⟨q, hstands, hstop⟩
    refine ⟨⟨vs, q⟩, (hat _).2 ⟨q, rfl, hstands⟩, ?_⟩
    rw [if_neg]
    · rfl
    · rintro ⟨hc, hne⟩
      exact hne (by rw [hstop hc])

end Layout
