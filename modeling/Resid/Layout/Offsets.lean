import Resid.Layout.Facts

/-!
# Offsets

Where fields start and end.  The C offset of a field is the end of the fields before it, rounded
up to its alignment; padding never takes more than seven bytes, and none before a field without
bytes, so offsets stay in proportion to the sizes of the fields.

    lyRoundExpr ts t done.length = lyRound (endAt …) (lyAlign …)          (lyRoundExpr_eq)
    Small ts → lyRoundExpr ts t done.length < 2 ^ 35                      (Small.offset)
-/

namespace Layout

open Runtime

variable {ts : List LyT} {t : LyT} {f : LyF}

/-! ## Rounding and alignment -/

theorem le_lyRound (x : Int) {a : Nat} (ha : 0 < a) : x ≤ lyRound x a := by
  have hdiv := Int.mul_ediv_add_emod (x + a - 1) a
  have hmod := Int.emod_lt_of_pos (x + a - 1) (show (0 : Int) < a by omega)
  unfold lyRound
  rw [mul_comm]
  omega

theorem lyRound_le (x : Int) {a : Nat} (ha : 0 < a) : lyRound x a ≤ x + a - 1 := by
  have hdiv := Int.mul_ediv_add_emod (x + a - 1) a
  have hmod := Int.emod_nonneg (x + a - 1) (show (a : Int) ≠ 0 by omega)
  unfold lyRound
  rw [mul_comm]
  omega

@[simp] theorem lyRound_one (x : Int) : lyRound x 1 = x := by
  unfold lyRound
  omega

theorem foldl_align (a : LyF → Nat) (fs : List LyF) (acc : Nat) :
    (∀ m, acc ≤ m → (∀ f ∈ fs, a f ≤ m) →
        fs.foldl (fun acc f => if a f > acc then a f else acc) acc ≤ m) ∧
      (fs.foldl (fun acc f => if a f > acc then a f else acc) acc = acc ∨
        ∃ f ∈ fs, a f = fs.foldl (fun acc f => if a f > acc then a f else acc) acc) := by
  induction fs generalizing acc with
  | nil => exact ⟨fun m h _ => h, .inl rfl⟩
  | cons x fs ih =>
    obtain ⟨hle, hmem⟩ := ih (if a x > acc then a x else acc)
    rw [List.foldl_cons]
    constructor
    · intro m hacc hfs
      refine hle m ?_ fun f hf => hfs f (List.mem_cons_of_mem x hf)
      have hx := hfs x List.mem_cons_self
      split_ifs <;> omega
    · rcases hmem with hsame | ⟨f, hf, heq⟩
      · rw [hsame]
        split_ifs
        · exact .inr ⟨x, List.mem_cons_self, rfl⟩
        · exact .inl rfl
      · exact .inr ⟨f, List.mem_cons_of_mem x hf, heq⟩

theorem lyTypeAlign_pos (a : LyF → Nat) (t : LyT) : 0 < lyTypeAlign a t :=
  (le_foldl_max a t.fs 1).1

theorem lyTypeAlign_le {a : LyF → Nat} {m : Nat} (hm : 1 ≤ m) (h : ∀ f ∈ t.fs, a f ≤ m) :
    lyTypeAlign a t ≤ m :=
  (foldl_align a t.fs 1).1 m hm h

/-- An alignment above 1 is that of a field. -/
theorem exists_of_lyTypeAlign {a : LyF → Nat} (h : 1 < lyTypeAlign a t) :
    ∃ f ∈ t.fs, a f = lyTypeAlign a t := by
  rcases (foldl_align a t.fs 1).2 with hone | hmem
  · exact absurd hone (by unfold lyTypeAlign at h; omega)
  · exact hmem

theorem lyAlign_bounds (ts : List LyT) (left : Nat) (f : LyF) :
    0 < lyAlign ts left f ∧ lyAlign ts left f ≤ 8 := by
  induction left generalizing f with
  | zero =>
    have hbits := lyIntBits_cases f.ty
    unfold lyAlign
    split_ifs <;> omega
  | succ left ih =>
    have hbits := lyIntBits_cases f.ty
    unfold lyAlign
    split_ifs
    · omega
    · omega
    · split
      · exact ⟨lyTypeAlign_pos _ _, lyTypeAlign_le (by decide) fun g _ => (ih g).2⟩
      · omega

/-! ## Sizes by kind -/

theorem lyFsize_reserved (hrsv : 0 < f.rsv) : lyFsize ts lyLevels f = f.rsv := if_pos hrsv

theorem lyFsize_int (hrsv : f.rsv = 0) (hbits : 0 < lyIntBits f.ty) :
    lyFsize ts lyLevels f = (lyIntBits f.ty / 8 : Nat) := by
  unfold lyFsize lyFsizeWith
  rw [if_neg (by omega), if_pos hbits]

theorem lyFsize_fixed (hrsv : f.rsv = 0) (hty : f.ty = bytesTy) (hint : strIsInt f.len = true) :
    lyFsize ts lyLevels f = strParseInt f.len := by
  have hne : f.len ≠ [] := by
    rintro hnil
    rw [hnil] at hint
    exact absurd hint (by decide)
  unfold lyFsize lyFsizeWith
  rw [if_neg (by omega), hty, lyIntBits_bytesTy, if_neg (by decide), if_pos ⟨hne, hint⟩]

theorem lyFsize_var (hrsv : f.rsv = 0) (hty : f.ty = bytesTy) (hlen : f.len ≠ [])
    (hint : strIsInt f.len = false) : lyFsize ts lyLevels f = -1 := by
  unfold lyFsize lyFsizeWith
  rw [if_neg (by omega), hty, lyIntBits_bytesTy, if_neg (by decide), if_neg (by simp [hint]),
    if_pos hlen]

theorem lyFsize_nested (hrsv : f.rsv = 0) (hbits : lyIntBits f.ty = 0) (hlen : f.len = []) {n : LyT}
    (hn : lyType ts f.ty = some n) : lyFsize ts lyLevels f = lyTypeSize ts lyLevels n := by
  unfold lyFsize lyFsizeWith
  rw [if_neg (by omega), if_neg (by omega), if_neg (by simp [hlen]), if_neg (by simp [hlen]), hn]

theorem lyWidth_reserved (hrsv : 0 < f.rsv) : lyWidth ts f = f.rsv := if_pos hrsv

theorem lyWidth_int (hrsv : f.rsv = 0) (hbits : 0 < lyIntBits f.ty) :
    lyWidth ts f = (lyIntBits f.ty / 8 : Nat) := by
  unfold lyWidth
  rw [if_neg (by omega), if_pos hbits]

theorem lyWidth_bytes (hrsv : f.rsv = 0) (hty : f.ty = bytesTy) :
    lyWidth ts f = if strIsInt f.len then strParseInt f.len else 0 := by
  unfold lyWidth
  rw [if_neg (by omega), hty, lyIntBits_bytesTy, if_neg (by decide), if_pos rfl]

theorem lyWidth_nested (hrsv : f.rsv = 0) (hbits : lyIntBits f.ty = 0) (hty : f.ty ≠ bytesTy)
    {n : LyT} (hn : lyType ts f.ty = some n) : lyWidth ts f = lyTypeSize ts lyLevels n := by
  unfold lyWidth
  rw [if_neg (by omega), if_neg (by omega), if_neg hty, hn]

variable {done fs rest : List LyF} {last : Bool}

/-- The serializer's running offset goes by the field's size, and past a variable field by 0. -/
theorem lyWidth_eq (h : FieldOk ts t done f last) :
    lyWidth ts f = lyFsize ts lyLevels f ∨ (lyWidth ts f = 0 ∧ lyFsize ts lyLevels f = -1) := by
  cases h with
  | reserved hrsv => exact .inl (by rw [lyWidth_reserved hrsv, lyFsize_reserved hrsv])
  | int hrsv hbits => exact .inl (by rw [lyWidth_int hrsv hbits, lyFsize_int hrsv hbits])
  | fixed hrsv hty hint hn =>
    exact .inl (by rw [lyWidth_bytes hrsv hty, if_pos hint, lyFsize_fixed hrsv hty hint])
  | var hrsv hty hlen hint =>
    refine .inr ⟨?_, lyFsize_var hrsv hty hlen hint⟩
    rw [lyWidth_bytes hrsv hty, if_neg (by simp [hint])]
  | nested hrsv hbits hty hlen n hn =>
    exact .inl (by rw [lyWidth_nested hrsv hbits hty hn, lyFsize_nested hrsv hbits hlen hn])

/-! ## C types -/

/-- A field whose length another field gives. -/
def Variable (f : LyF) : Prop := f.len ≠ [] ∧ strIsInt f.len = false

instance (f : LyF) : Decidable (Variable f) := inferInstanceAs (Decidable (_ ∧ _))

theorem lyTypeHasVar_iff : lyTypeHasVar t = true ↔ ∃ f ∈ t.fs, Variable f := by
  unfold lyTypeHasVar Variable
  rw [List.any_eq_true]
  constructor
  · rintro ⟨f, hf, h⟩
    exact ⟨f, hf, by simpa using h⟩
  · rintro ⟨f, hf, h⟩
    exact ⟨f, hf, by simpa using h⟩

/-- Where the fields end when the first starts at or after `off`. -/
def lyEndAt (ts : List LyT) : List LyF → (off : Int) → Int
  | [], off => off
  | f :: fs, off => lyEndAt ts fs (lyRound off (lyAlign ts lyLevels f) + lyFsize ts lyLevels f)

theorem lyEndAt_append (fs gs : List LyF) (off : Int) :
    lyEndAt ts (fs ++ gs) off = lyEndAt ts gs (lyEndAt ts fs off) := by
  induction fs generalizing off with
  | nil => rfl
  | cons f fs ih => exact ih _

theorem lyOffAt_append (done rest : List LyF) (off : Int) :
    lyOffAt (lyAlign ts lyLevels) (lyFsize ts lyLevels) (done ++ f :: rest) off done.length =
      lyRound (lyEndAt ts done off) (lyAlign ts lyLevels f) := by
  induction done generalizing off with
  | nil => rfl
  | cons d done ih => exact ih _

theorem lyRoundExpr_eq (hfs : t.fs = done ++ f :: rest) :
    lyRoundExpr ts t done.length = lyRound (lyEndAt ts done 0) (lyAlign ts lyLevels f) := by
  unfold lyRoundExpr
  rw [hfs, lyOffAt_append]

theorem FieldOk.size_nonneg (h : FieldOk ts t done f last) (hc : t.kind = .cAbi)
    (hvar : ¬ Variable f) : 0 ≤ lyFsize ts lyLevels f := by
  cases h with
  | reserved hrsv =>
    rw [lyFsize_reserved hrsv]
    omega
  | int hrsv hbits =>
    rw [lyFsize_int hrsv hbits]
    omega
  | fixed hrsv hty hint hn => rwa [lyFsize_fixed hrsv hty hint]
  | var hrsv hty hlen hint => exact absurd ⟨hlen, hint⟩ hvar
  | nested hrsv hbits hty hlen n hn hkind hfix =>
    rw [lyFsize_nested hrsv hbits hlen hn]
    exact (hfix hc).1

theorem FieldOk.last_of_variable (h : FieldOk ts t done f last) (hc : t.kind = .cAbi)
    (hvar : Variable f) : last = true := by
  cases h with
  | reserved hrsv => exact absurd (f.bare hrsv).2.2.2 hvar.1
  | int hrsv hbits hlen => exact absurd hlen hvar.1
  | fixed hrsv hty hint hn => exact absurd hvar.2 (by simp [hint])
  | var hrsv hty hlen hint lf hlf hbits hlast => exact hlast hc
  | nested hrsv hbits hty hlen => exact absurd hlen hvar.1

/-- Under c_abi nothing before a field is variable. -/
theorem Accepted.not_variable (hacc : Accepted ts) (ht : t ∈ ts) (hc : t.kind = .cAbi)
    (hfs : t.fs = done ++ f :: rest) : ∀ g ∈ done, ¬ Variable g := by
  intro g hg hvar
  obtain ⟨l, r, rfl⟩ := List.append_of_mem hg
  have hsplit : t.fs = l ++ g :: (r ++ f :: rest) := by
    rw [hfs, List.append_assoc]
    rfl
  have hlast := (hacc.field ht hsplit).last_of_variable hc hvar
  cases r with
  | nil => exact absurd hlast (by simp)
  | cons x r => exact absurd hlast (by simp)

theorem Accepted.size_nonneg (hacc : Accepted ts) (ht : t ∈ ts) (hc : t.kind = .cAbi) (hf : f ∈ t.fs)
    (hvar : ¬ Variable f) : 0 ≤ lyFsize ts lyLevels f := by
  obtain ⟨done, rest, hfs⟩ := List.append_of_mem hf
  exact (hacc.field ht hfs).size_nonneg hc hvar

theorem le_lyEndAt (h : ∀ f ∈ fs, 0 ≤ lyFsize ts lyLevels f) (off : Int) :
    off ≤ lyEndAt ts fs off ∧ ∀ f ∈ fs, off + lyFsize ts lyLevels f ≤ lyEndAt ts fs off := by
  induction fs generalizing off with
  | nil => exact ⟨le_rfl, fun f hf => nomatch hf⟩
  | cons x fs ih =>
    have hx := h x List.mem_cons_self
    have hround := le_lyRound off (lyAlign_bounds ts lyLevels x).1
    obtain ⟨hoff, hfs⟩ := ih (fun f hf => h f (List.mem_cons_of_mem x hf))
      (lyRound off (lyAlign ts lyLevels x) + lyFsize ts lyLevels x)
    refine ⟨le_trans (by omega) hoff, ?_⟩
    intro f hf
    rcases List.mem_cons.1 hf with rfl | hf
    · exact le_trans (by omega) hoff
    · exact le_trans (by omega) (hfs f hf)

theorem lySizeAt_cAbi (hc : t.kind = .cAbi) (h : ∀ f ∈ fs, 0 ≤ lyFsize ts lyLevels f) (off : Int) :
    lySizeAt (lyAlign ts lyLevels) (lyFsize ts lyLevels) t fs off =
      lyRound (lyEndAt ts fs off) (lyTypeAlign (lyAlign ts lyLevels) t) := by
  induction fs generalizing off with
  | nil => simp only [lySizeAt, lyEndAt, hc, if_true]
  | cons f fs ih =>
    have hf := h f List.mem_cons_self
    have hrest := ih fun g hg => h g (List.mem_cons_of_mem f hg)
    simp only [lySizeAt, lyEndAt, hc, if_true, if_neg (not_lt.2 hf), hrest]

/-- A C type without variable fields: its fields end, rounded up to its alignment. -/
theorem Accepted.size_eq (hacc : Accepted ts) (ht : t ∈ ts) (hc : t.kind = .cAbi)
    (hvar : lyTypeHasVar t = false) :
    lyTypeSize ts lyLevels t =
      lyRound (lyEndAt ts t.fs 0) (lyTypeAlign (lyAlign ts lyLevels) t) := by
  have hnone : ∀ f ∈ t.fs, ¬ Variable f := by
    intro f hf hv
    exact absurd (lyTypeHasVar_iff.2 ⟨f, hf, hv⟩) (by simp [hvar])
  rw [lyTypeSize_eq (hacc.within ht),
    lySizeAt_cAbi hc fun f hf => hacc.size_nonneg ht hc hf (hnone f hf)]

/-! ## Bounds -/

/-- Padding stands only before fields that have bytes. -/
theorem Accepted.size_pos (hacc : Accepted ts) {k : Nat} (ht : t ∈ ts) (hc : t.kind = .cAbi)
    (hw : Within ts k t) (hf : f ∈ t.fs) (h : 1 < lyAlign ts lyLevels f) :
    1 ≤ lyFsize ts lyLevels f := by
  induction k generalizing t f with
  | zero => exact hw.elim
  | succ k ih =>
    obtain ⟨done, rest, hfs⟩ := List.append_of_mem hf
    have hone : ∀ g : LyF, 0 < g.rsv ∨ (lyIntBits g.ty = 0 ∧ lyType ts g.ty = none) →
        lyAlign ts lyLevels g = 1 := by
      rintro g (hg | ⟨hbits, hnone⟩)
      · exact if_pos hg
      · simp only [lyLevels, lyAlign, hbits, hnone]
        simp
    cases hacc.field ht hfs with
    | reserved hrsv => exact absurd (hone f (.inl hrsv)) (by omega)
    | int hrsv hbits =>
      have hcases := lyIntBits_cases f.ty
      rw [lyFsize_int hrsv hbits]
      omega
    | fixed hrsv hty hint hn =>
      refine absurd (hone f (.inr ⟨?_, ?_⟩)) (by omega)
      · rw [hty, lyIntBits_bytesTy]
      · rw [hty, lyType_bytesTy]
    | var hrsv hty hlen hint =>
      refine absurd (hone f (.inr ⟨?_, ?_⟩)) (by omega)
      · rw [hty, lyIntBits_bytesTy]
      · rw [hty, lyType_bytesTy]
    | nested hrsv hbits hty hlen n hn hkind hfix =>
      have hnt := mem_of_lyType hn
      have hnc := hkind.trans hc
      have hnvar := (hfix hc).2
      rw [lyAlign_nested hrsv hbits hn (hacc.within hnt)] at h
      obtain ⟨g, hg, hgalign⟩ := exists_of_lyTypeAlign h
      have hgsize := ih hnt hnc (hw f hf n hn) hg (by omega)
      have hnonneg : ∀ x ∈ n.fs, 0 ≤ lyFsize ts lyLevels x := fun x hx =>
        hacc.size_nonneg hnt hnc hx fun hv =>
          absurd (lyTypeHasVar_iff.2 ⟨x, hx, hv⟩) (by simp [hnvar])
      have hend := (le_lyEndAt hnonneg 0).2 g hg
      have hround := le_lyRound (lyEndAt ts n.fs 0) (lyTypeAlign_pos (lyAlign ts lyLevels) n)
      rw [lyFsize_nested hrsv hbits hlen hn, hacc.size_eq hnt hnc hnvar]
      omega

/-- The fixed sizes of the fields, added up. -/
def fixedSum (ts : List LyT) (fs : List LyF) : Int :=
  (fs.map fun f => max 0 (lyFsize ts lyLevels f)).sum

theorem fixedSum_nonneg (ts : List LyT) (fs : List LyF) : 0 ≤ fixedSum ts fs := by
  induction fs with
  | nil => exact le_rfl
  | cons f fs ih =>
    show 0 ≤ max 0 (lyFsize ts lyLevels f) + fixedSum ts fs
    omega

theorem fixedSum_append (fs gs : List LyF) :
    fixedSum ts (fs ++ gs) = fixedSum ts fs + fixedSum ts gs := by
  unfold fixedSum
  rw [List.map_append, List.sum_append]

theorem fixedSum_cons (f : LyF) (fs : List LyF) :
    fixedSum ts (f :: fs) = max 0 (lyFsize ts lyLevels f) + fixedSum ts fs := rfl

theorem lyEndAt_le (h : ∀ f ∈ fs, 0 ≤ lyFsize ts lyLevels f)
    (hpos : ∀ f ∈ fs, 1 < lyAlign ts lyLevels f → 1 ≤ lyFsize ts lyLevels f) (off : Int) :
    lyEndAt ts fs off ≤ off + 8 * fixedSum ts fs := by
  induction fs generalizing off with
  | nil =>
    show off ≤ off + 8 * 0
    omega
  | cons f fs ih =>
    have hf := h f List.mem_cons_self
    have hfpos := hpos f List.mem_cons_self
    obtain ⟨hlo, hhi⟩ := lyAlign_bounds ts lyLevels f
    have hround := lyRound_le off hlo
    have hrest := ih (fun g hg => h g (List.mem_cons_of_mem f hg))
      (fun g hg => hpos g (List.mem_cons_of_mem f hg))
      (lyRound off (lyAlign ts lyLevels f) + lyFsize ts lyLevels f)
    rw [fixedSum_cons, Int.max_eq_right hf]
    refine le_trans hrest ?_
    by_cases ha : 1 < lyAlign ts lyLevels f
    · have := hfpos ha
      omega
    · have hone : lyAlign ts lyLevels f = 1 := by omega
      rw [hone, lyRound_one]
      omega

/-- The fixed sizes of each type sum below 2^31. -/
def Small (ts : List LyT) : Prop := ∀ t ∈ ts, fixedSum ts t.fs < 2 ^ 31

instance (ts : List LyT) : Decidable (Small ts) := inferInstanceAs (Decidable (∀ t ∈ ts, _))

theorem Small.field (h : Small ts) (ht : t ∈ ts) (hf : f ∈ t.fs) :
    lyFsize ts lyLevels f < 2 ^ 31 := by
  obtain ⟨done, rest, hfs⟩ := List.append_of_mem hf
  have hsum := h t ht
  have hdone := fixedSum_nonneg ts done
  have hrest := fixedSum_nonneg ts rest
  rw [hfs, fixedSum_append, fixedSum_cons] at hsum
  omega

/-- The C offset of a field. -/
theorem lyRoundExpr_nonneg (hacc : Accepted ts) (ht : t ∈ ts) (hc : t.kind = .cAbi)
    (hfs : t.fs = done ++ f :: rest) : 0 ≤ lyRoundExpr ts t done.length := by
  have hnonneg : ∀ g ∈ done, 0 ≤ lyFsize ts lyLevels g := fun g hg =>
    hacc.size_nonneg ht hc (by rw [hfs]; exact List.mem_append_left _ hg)
      (hacc.not_variable ht hc hfs g hg)
  have hend := (le_lyEndAt hnonneg 0).1
  have hround := le_lyRound (lyEndAt ts done 0) (lyAlign_bounds ts lyLevels f).1
  rw [lyRoundExpr_eq hfs]
  omega

theorem Small.offset (hacc : Accepted ts) (hsmall : Small ts) (ht : t ∈ ts) (hc : t.kind = .cAbi)
    (hfs : t.fs = done ++ f :: rest) : lyRoundExpr ts t done.length < 2 ^ 35 := by
  have hmem : ∀ g ∈ done, g ∈ t.fs := fun g hg => by
    rw [hfs]
    exact List.mem_append_left _ hg
  have hnonneg : ∀ g ∈ done, 0 ≤ lyFsize ts lyLevels g := fun g hg =>
    hacc.size_nonneg ht hc (hmem g hg) (hacc.not_variable ht hc hfs g hg)
  have hpos : ∀ g ∈ done, 1 < lyAlign ts lyLevels g → 1 ≤ lyFsize ts lyLevels g := fun g hg =>
    hacc.size_pos ht hc (hacc.within ht) (hmem g hg)
  have hle := lyEndAt_le hnonneg hpos 0
  obtain ⟨halo, hahi⟩ := lyAlign_bounds ts lyLevels f
  have hrhi := lyRound_le (lyEndAt ts done 0) halo
  have hsum := hsmall t ht
  have hrest := fixedSum_nonneg ts (f :: rest)
  rw [hfs, fixedSum_append] at hsum
  rw [lyRoundExpr_eq hfs]
  omega

theorem lySizeAt_bounds (hc : t.kind = .cAbi)
    (hpos : ∀ f ∈ fs, 1 < lyAlign ts lyLevels f → 1 ≤ lyFsize ts lyLevels f)
    (hlast : ∀ done f rest, fs = done ++ f :: rest → lyFsize ts lyLevels f < 0 → rest = [])
    {off : Int} (hoff : 0 ≤ off) :
    0 ≤ lySizeAt (lyAlign ts lyLevels) (lyFsize ts lyLevels) t fs off ∧
      lySizeAt (lyAlign ts lyLevels) (lyFsize ts lyLevels) t fs off ≤
        off + 8 * fixedSum ts fs + 15 := by
  have halign : lyTypeAlign (lyAlign ts lyLevels) t ≤ 8 :=
    lyTypeAlign_le (by decide) fun g _ => (lyAlign_bounds ts lyLevels g).2
  have hround : ∀ x : Int, x ≤ lyRound x (lyTypeAlign (lyAlign ts lyLevels) t) ∧
      lyRound x (lyTypeAlign (lyAlign ts lyLevels) t) ≤ x + 7 := by
    intro x
    have hpos := lyTypeAlign_pos (lyAlign ts lyLevels) t
    have hhi := lyRound_le x hpos
    exact ⟨le_lyRound x hpos, by omega⟩
  induction fs generalizing off with
  | nil =>
    have hend := hround off
    simp only [lySizeAt, hc, if_true]
    show _ ∧ _ ≤ off + 8 * 0 + 15
    omega
  | cons f fs ih =>
    obtain ⟨hlo, hhi⟩ := lyAlign_bounds ts lyLevels f
    have hflo := le_lyRound off hlo
    have hfhi := lyRound_le off hlo
    have hfpos := hpos f List.mem_cons_self
    have hsum := fixedSum_nonneg ts fs
    have hend := hround (lyRound off (lyAlign ts lyLevels f))
    simp only [lySizeAt, hc, if_true, fixedSum_cons]
    split_ifs with hneg hempty
    · omega
    · have hnil := hlast [] f fs rfl hneg
      exact absurd (List.isEmpty_iff.2 hnil) hempty
    · have hrest := ih (fun g hg => hpos g (List.mem_cons_of_mem f hg))
        (fun done g rest hfs => hlast (f :: done) g rest (by rw [hfs]; rfl))
        (show 0 ≤ lyRound off (lyAlign ts lyLevels f) + lyFsize ts lyLevels f by omega)
      rw [Int.max_eq_right (not_lt.1 hneg)]
      by_cases ha : 1 < lyAlign ts lyLevels f
      · have := hfpos ha
        omega
      · have hone : lyAlign ts lyLevels f = 1 := by omega
        rw [hone, lyRound_one] at hrest hflo ⊢
        omega

theorem Accepted.size_bounds (hacc : Accepted ts) (ht : t ∈ ts) (hc : t.kind = .cAbi) :
    0 ≤ lyTypeSize ts lyLevels t ∧ lyTypeSize ts lyLevels t ≤ 8 * fixedSum ts t.fs + 15 := by
  have hlast : ∀ done f rest, t.fs = done ++ f :: rest → lyFsize ts lyLevels f < 0 → rest = [] := by
    intro done f rest hfs hneg
    have hok := hacc.field ht hfs
    have hvar : Variable f := by
      by_contra hvar
      have := hok.size_nonneg hc hvar
      omega
    exact List.isEmpty_iff.1 (hok.last_of_variable hc hvar)
  obtain ⟨hlo, hhi⟩ := lySizeAt_bounds hc
    (fun f hf => hacc.size_pos ht hc (hacc.within ht) hf) hlast (le_refl 0)
  rw [lyTypeSize_eq (hacc.within ht)]
  omega

/-- Sizes and offsets far below the Int range. -/
structure Sized (ts : List LyT) (t : LyT) : Prop where
  reserved : ∀ f ∈ t.fs, f.rsv < 2 ^ 47
  fixed : ∀ f ∈ t.fs, f.ty = bytesTy → strIsInt f.len = true → strParseInt f.len < 2 ^ 47
  offset : t.kind = .cAbi → ∀ done f rest, t.fs = done ++ f :: rest →
    lyRoundExpr ts t done.length < 2 ^ 47
  size : t.kind = .cAbi → lyTypeSize ts lyLevels t < 2 ^ 47

/-- A type and the types nested in it are sized. -/
def Bounded (ts : List LyT) : (left : Nat) → LyT → Prop
  | 0, _ => True
  | left + 1, t => Sized ts t ∧ ∀ f ∈ t.fs, ∀ n, lyType ts f.ty = some n → Bounded ts left n

theorem Small.sized (hacc : Accepted ts) (hsmall : Small ts) (ht : t ∈ ts) : Sized ts t := by
  constructor
  · intro f hf
    rcases Nat.eq_zero_or_pos f.rsv with hrsv | hrsv
    · omega
    · have hsize := hsmall.field ht hf
      rw [lyFsize_reserved hrsv] at hsize
      omega
  · intro f hf hty hint
    have hsize := hsmall.field ht hf
    have hrsv : f.rsv = 0 := by
      by_contra hrsv
      have := (f.bare (Nat.pos_of_ne_zero hrsv)).2.1
      rw [this] at hty
      exact absurd hty (by decide)
    rw [lyFsize_fixed hrsv hty hint] at hsize
    omega
  · intro hc done f rest hfs
    have := hsmall.offset hacc ht hc hfs
    omega
  · intro hc
    have hsize := (hacc.size_bounds ht hc).2
    have hsum := hsmall t ht
    omega

theorem Small.bounded (hacc : Accepted ts) (hsmall : Small ts) (ht : t ∈ ts) (left : Nat) :
    Bounded ts left t := by
  induction left generalizing t with
  | zero => trivial
  | succ left ih => exact ⟨hsmall.sized hacc ht, fun f _ n hn => ih (mem_of_lyType hn)⟩

end Layout
