import Mathlib.Algebra.Order.BigOperators.Group.List
import Resid.Layout.Serializer

/-!
# The bytes written

What is written starts with what the fields before have written, so under `c_abi` every field goes
to its C offset, and a type without variable fields takes its size.  Packed bytes add up the
fields: the size and the lengths of the variable fields, where these stand last.

    Writes … vs bs, c_abi without variable fields → bs.length = T_size            (writes_length_c)
    Writes … vs bs, Straight → bs.length = T_size + varLen … vs                   (writes_length)
    Writes … vs bs → bs.length ≤ listMax → Bounded ts left t                      (writes_bounded)
-/

namespace Layout

open Runtime

variable {ex : Exprs} {ts : List LyT} {t : LyT} {f : LyF} {done fs : List LyF} {env : Env}
  {st : LyT → List Val → List UInt8 → Prop} {vs : List Val} {off : Int} {acc out bs : List UInt8}

/-! ## Places -/

@[simp] theorem length_lyZeros (n : Int) : (lyZeros n).length = n.toNat := by simp [lyZeros]

theorem length_lyPad (off o : Int) : (lyPad off o).length = (o - off).toNat := by
  unfold lyPad
  split_ifs
  · simp
  · simp
    omega

theorem lyPad_self (off : Int) : lyPad off off = [] := if_neg (by omega)

theorem FieldsWrite.extends (h : FieldsWrite st ex ts t fs vs env off acc out) :
    ∃ rest, out = acc ++ rest := by
  induction fs generalizing vs env off acc with
  | nil => exact ⟨_, h.2⟩
  | cons f fs ih =>
    unfold FieldsWrite at h
    by_cases hrsv : f.rsv > 0
    · simp only [if_pos hrsv] at h
      obtain ⟨rest, rfl⟩ := ih h
      exact ⟨_, by simp only [List.append_assoc]; rfl⟩
    · simp only [if_neg hrsv] at h
      cases vs with
      | nil => exact h.elim
      | cons v vs =>
        obtain ⟨bs, -, -, h⟩ := h
        obtain ⟨rest, rfl⟩ := ih h
        exact ⟨_, by simp only [List.append_assoc]; rfl⟩

/-- The fields before end at `off` and have written that much, under c_abi and without a variable
field. -/
def InPlace (ts : List LyT) (t : LyT) (done : List LyF) (off : Int) (acc : List UInt8) : Prop :=
  t.kind = .cAbi → (∀ g ∈ done, ¬ Variable g) → off = lyEndAt ts done 0 ∧ (acc.length : Int) = off

theorem InPlace.nil : InPlace ts t [] 0 [] := fun _ _ => ⟨rfl, rfl⟩

variable {rest : List LyF} {left : Nat}

/-- The padding fills up to the field's C offset. -/
theorem InPlace.pad (h : InPlace ts t done off acc) (hc : t.kind = .cAbi)
    (hdone : ∀ g ∈ done, ¬ Variable g) (hfs : t.fs = done ++ f :: rest) :
    lyPlace ts t f off = lyRoundExpr ts t done.length ∧
      ((acc ++ lyPad off (lyPlace ts t f off)).length : Int) = lyPlace ts t f off := by
  obtain ⟨hoff, hacc⟩ := h hc hdone
  have hplace : lyPlace ts t f off = lyRound off (lyAlign ts lyLevels f) := if_pos hc
  have hround := le_lyRound off (lyAlign_bounds ts lyLevels f).1
  constructor
  · rw [lyRoundExpr_eq hfs, hplace, hoff]
  · rw [List.length_append, length_lyPad, hplace]
    omega

/-- A field that is not variable is followed in place. -/
theorem InPlace.step (h : InPlace ts t done off acc) (hfs : t.fs = done ++ f :: rest)
    (hok : FieldOk ts t done f rest.isEmpty) {part : List UInt8}
    (hpart : ¬ Variable f → t.kind = .cAbi → (part.length : Int) = lyWidth ts f) :
    InPlace ts t (done ++ [f]) (lyPlace ts t f off + lyWidth ts f)
      (acc ++ lyPad off (lyPlace ts t f off) ++ part) := by
  intro hc hnone
  have hdone : ∀ g ∈ done, ¬ Variable g := fun g hg => hnone g (List.mem_append_left _ hg)
  have hf : ¬ Variable f := hnone f (by simp)
  obtain ⟨hplace, hlen⟩ := h.pad hc hdone hfs
  have hwidth : lyWidth ts f = lyFsize ts lyLevels f := by
    rcases lyWidth_eq hok with heq | ⟨-, hneg⟩
    · exact heq
    · have := hok.size_nonneg hc hf
      omega
  constructor
  · rw [lyEndAt_append, hplace, lyRoundExpr_eq hfs, hwidth]
    rfl
  · rw [List.length_append, Int.natCast_add, hlen, hpart hf hc]

/-! ## Lengths of parts -/

/-- The bytes of a value take the field's width, a nested type's being its size. -/
theorem ValueWrites.length_eq {v : Val} (h : ValueWrites st ts t f env v bs) {last : Bool}
    (hok : FieldOk ts t done f last) (hrsv : f.rsv = 0) (hvar : ¬ Variable f)
    (hst : ∀ n vs bs, lyType ts f.ty = some n → st n vs bs →
      (bs.length : Int) = lyTypeSize ts lyLevels n) : (bs.length : Int) = lyWidth ts f := by
  cases h with
  | int hbits n => rw [length_encode, lyWidth_int hrsv hbits]
  | bytes hty _ hn =>
    have hint : strIsInt f.len = true := by
      by_contra hint
      exact hvar ⟨(hok.len_ne hrsv).2 hty, Bool.eq_false_iff.2 hint⟩
    rw [lyWidth_bytes hrsv hty, if_pos hint, ← hn, lyLen, if_pos hint]
  | nested hbits hty n hn vs _ h => rw [hst n vs bs hn h, lyWidth_nested hrsv hbits hty hn]

theorem length_reserved (ts : List LyT) (hrsv : 0 < f.rsv) : ((lyZeros f.rsv).length : Int) = lyWidth ts f := by
  rw [length_lyZeros, Int.toNat_natCast, lyWidth_reserved hrsv]

/-! ## The length of a C type -/

theorem fieldsWrite_length_c (hacc : Accepted ts) (ht : t ∈ ts) (hc : t.kind = .cAbi)
    (hvar : lyTypeHasVar t = false)
    (hst : ∀ f ∈ t.fs, ∀ n vs bs, lyType ts f.ty = some n → st n vs bs →
      (bs.length : Int) = lyTypeSize ts lyLevels n)
    (hfs : t.fs = done ++ fs) (hplace : InPlace ts t done off acc)
    (h : FieldsWrite st ex ts t fs vs env off acc out) :
    (out.length : Int) = lyTypeSize ts lyLevels t := by
  have hnone : ∀ g ∈ t.fs, ¬ Variable g := fun g hg hv =>
    absurd (lyTypeHasVar_iff.2 ⟨g, hg, hv⟩) (by simp [hvar])
  induction fs generalizing done vs env off acc with
  | nil =>
    rw [List.append_nil] at hfs
    obtain ⟨hoff, hlen⟩ := hplace hc (by rwa [← hfs])
    have hround := le_lyRound (lyEndAt ts t.fs 0) (lyTypeAlign_pos (lyAlign ts lyLevels) t)
    have hsize := hacc.size_eq ht hc hvar
    rw [← hfs] at hoff
    rw [h.2, lyTail, List.length_append, if_pos hc]
    split_ifs with hpad
    · rw [length_lyZeros]
      omega
    · have : ¬ lyTypeSize ts lyLevels t - off > 0 := fun hgt => hpad ⟨hgt, hvar⟩
      simp
      omega
  | cons f fs ih =>
    have hf : f ∈ t.fs := by simp [hfs]
    have hfs' : t.fs = (done ++ [f]) ++ fs := by simp [hfs]
    have hok := hacc.field ht hfs
    unfold FieldsWrite at h
    by_cases hrsv : f.rsv > 0
    · simp only [if_pos hrsv] at h
      exact ih hfs' (hplace.step hfs hok fun _ _ => length_reserved ts hrsv) h
    · simp only [if_neg hrsv] at h
      cases vs with
      | nil => exact h.elim
      | cons v vs =>
        obtain ⟨bs, hw, -, h⟩ := h
        have hpart := hw.length_eq hok (by omega) (hnone f hf) (hst f hf)
        exact ih hfs' (hplace.step hfs hok fun _ _ => hpart) h

/-- A C type without variable fields takes its size. -/
theorem writes_length_c (hacc : Accepted ts) (ht : t ∈ ts) (hc : t.kind = .cAbi)
    (hvar : lyTypeHasVar t = false) (h : Writes ex ts left t vs bs) :
    (bs.length : Int) = lyTypeSize ts lyLevels t := by
  induction left generalizing t vs bs with
  | zero => exact h.elim
  | succ left ih =>
    refine fieldsWrite_length_c hacc ht hc hvar ?_ (List.nil_append t.fs).symm .nil h
    intro f hf n vs bs hn hw
    obtain ⟨done, rest, hfs⟩ := List.append_of_mem hf
    obtain ⟨hkind, hfix⟩ := (hacc.field ht hfs).nested_fixed hn
    exact ih (mem_of_lyType hn) (hkind.trans hc) (hfix hc) hw

/-! ## The length of a packed type -/

/-- The bytes of a variable field, those of a nested record counted by `sub`. -/
def valueVarLen (sub : LyT → List Val → Nat) (ts : List LyT) (f : LyF) : Val → Nat
  | .int _ => 0
  | .bytes bs => if Variable f then bs.length else 0
  | .record vs =>
    match lyType ts f.ty with
    | some n => sub n vs
    | none => 0

def fieldsVarLen (sub : LyT → List Val → Nat) (ts : List LyT) : List LyF → List Val → Nat
  | [], _ => 0
  | f :: fs, vs =>
    if f.rsv > 0 then fieldsVarLen sub ts fs vs
    else
      match vs with
      | [] => 0
      | v :: vs => valueVarLen sub ts f v + fieldsVarLen sub ts fs vs

/-- The lengths of a record's variable fields, nested records included. -/
def varLen (ts : List LyT) : (left : Nat) → LyT → List Val → Nat
  | 0, _, _ => 0
  | left + 1, t, vs => fieldsVarLen (varLen ts left) ts t.fs vs

/-- No variable field stands before the last one, in nested types either. -/
def Straight (ts : List LyT) : (left : Nat) → LyT → Prop
  | 0, _ => False
  | left + 1, t => (∀ done f rest, t.fs = done ++ f :: rest → Variable f → rest = []) ∧
    ∀ f ∈ t.fs, ∀ n, lyType ts f.ty = some n → Straight ts left n

theorem lySizeAt_packed (hc : t.kind ≠ .cAbi) (hok : ∀ f ∈ fs, lyWidth ts f = lyFsize ts lyLevels f ∨
      (lyWidth ts f = 0 ∧ lyFsize ts lyLevels f = -1))
    (hlast : ∀ done f rest, fs = done ++ f :: rest → 0 ≤ lyFsize ts lyLevels f ∨ rest = [])
    (hnonneg : ∀ f ∈ fs, 0 ≤ lyWidth ts f) (off : Int) :
    lySizeAt (lyAlign ts lyLevels) (lyFsize ts lyLevels) t fs off =
      off + (fs.map (lyWidth ts)).sum := by
  induction fs generalizing off with
  | nil => simp [lySizeAt, hc]
  | cons f fs ih =>
    have hwidth := hok f List.mem_cons_self
    have hpos := hnonneg f List.mem_cons_self
    have hrest := ih (fun g hg => hok g (List.mem_cons_of_mem f hg))
      (fun done g rest hfs => hlast (f :: done) g rest (by rw [hfs]; rfl))
      (fun g hg => hnonneg g (List.mem_cons_of_mem f hg))
    simp only [lySizeAt, if_neg hc, List.map_cons, List.sum_cons]
    split_ifs with hneg hempty
    · rw [List.isEmpty_iff.1 hempty]
      simp
      omega
    · rcases hlast [] f fs rfl with h | h
      · omega
      · exact absurd (List.isEmpty_iff.2 h) hempty
    · rw [hrest]
      omega

/-- The size of a packed type is the sum of its fields' widths. -/
theorem Straight.size_eq (hacc : Accepted ts) (ht : t ∈ ts) (hc : t.kind ≠ .cAbi)
    (hs : Straight ts left t) :
    lyTypeSize ts lyLevels t = (t.fs.map (lyWidth ts)).sum ∧ ∀ f ∈ t.fs, 0 ≤ lyWidth ts f := by
  induction left generalizing t with
  | zero => exact hs.elim
  | succ left ih =>
    obtain ⟨hlast, hnested⟩ := hs
    have hwidth : ∀ f ∈ t.fs, 0 ≤ lyWidth ts f := by
      intro f hf
      obtain ⟨done, rest, hfs⟩ := List.append_of_mem hf
      cases hacc.field ht hfs with
      | reserved hrsv =>
        rw [lyWidth_reserved hrsv]
        omega
      | int hrsv hbits =>
        rw [lyWidth_int hrsv hbits]
        omega
      | fixed hrsv hty hint hn => rwa [lyWidth_bytes hrsv hty, if_pos hint]
      | var hrsv hty _ hint => rw [lyWidth_bytes hrsv hty, if_neg (by simp [hint])]
      | nested hrsv hbits hty _ n hn hkind =>
        obtain ⟨hsize, hpos⟩ := ih (mem_of_lyType hn) (by rwa [hkind]) (hnested f hf n hn)
        rw [lyWidth_nested hrsv hbits hty hn, hsize]
        exact List.sum_nonneg fun x hx => by
          obtain ⟨g, hg, rfl⟩ := List.mem_map.1 hx
          exact hpos g hg
    refine ⟨?_, hwidth⟩
    rw [lyTypeSize_eq (hacc.within ht), lySizeAt_packed hc _ _ hwidth, Int.zero_add]
    · intro f hf
      obtain ⟨done, rest, hfs⟩ := List.append_of_mem hf
      exact lyWidth_eq (hacc.field ht hfs)
    · intro done f rest hfs
      have hf : f ∈ t.fs := by simp [hfs]
      have hpos := hwidth f hf
      have hok := hacc.field ht hfs
      by_cases hvar : Variable f
      · exact .inr (hlast done f rest hfs hvar)
      · left
        rcases lyWidth_eq hok with heq | ⟨-, hneg⟩
        · omega
        · cases hok with
          | reserved hrsv =>
            rw [lyFsize_reserved hrsv] at hneg
            omega
          | int hrsv hbits =>
            rw [lyFsize_int hrsv hbits] at hneg
            omega
          | fixed hrsv hty hint hn => rwa [lyFsize_fixed hrsv hty hint]
          | var _ _ hlen hint => exact absurd ⟨hlen, hint⟩ hvar
          | nested hrsv hbits hty hlen n hn =>
            rw [lyWidth_nested hrsv hbits hty hn] at hpos
            rwa [lyFsize_nested hrsv hbits hlen hn]

/-- A field's part: its width and the variable bytes in it. -/
theorem ValueWrites.length_var {v : Val} (h : ValueWrites st ts t f env v bs) {last : Bool}
    (hok : FieldOk ts t done f last) (hrsv : f.rsv = 0) {sub : LyT → List Val → Nat}
    (hst : ∀ n vs bs, lyType ts f.ty = some n → st n vs bs →
      (bs.length : Int) = lyTypeSize ts lyLevels n + sub n vs) :
    (bs.length : Int) = lyWidth ts f + valueVarLen sub ts f v := by
  cases h with
  | int hbits n =>
    rw [length_encode, lyWidth_int hrsv hbits]
    simp [valueVarLen]
  | bytes hty _ hn =>
    rw [lyWidth_bytes hrsv hty, valueVarLen]
    by_cases hvar : Variable f
    · rw [if_neg (by simp [hvar.2]), if_pos hvar]
      omega
    · have hint : strIsInt f.len = true := by
        by_contra hint
        exact hvar ⟨(hok.len_ne hrsv).2 hty, Bool.eq_false_iff.2 hint⟩
      rw [lyLen, if_pos hint] at hn
      rw [if_pos hint, if_neg hvar]
      omega
  | nested hbits hty n hn vs _ h =>
    rw [hst n vs bs hn h, lyWidth_nested hrsv hbits hty hn, valueVarLen, hn]

theorem fieldsWrite_length (hacc : Accepted ts) (ht : t ∈ ts) (hc : t.kind ≠ .cAbi)
    {sub : LyT → List Val → Nat}
    (hst : ∀ f ∈ t.fs, ∀ n vs bs, lyType ts f.ty = some n → st n vs bs →
      (bs.length : Int) = lyTypeSize ts lyLevels n + sub n vs)
    (hfs : t.fs = done ++ fs) (h : FieldsWrite st ex ts t fs vs env off acc out) :
    (out.length : Int) = acc.length + (fs.map (lyWidth ts)).sum + fieldsVarLen sub ts fs vs := by
  induction fs generalizing done vs env off acc with
  | nil =>
    rw [h.2, lyTail, if_neg hc, if_neg (by omega)]
    simp [fieldsVarLen]
  | cons f fs ih =>
    have hf : f ∈ t.fs := by simp [hfs]
    have hfs' : t.fs = (done ++ [f]) ++ fs := by simp [hfs]
    have hplace : lyPlace ts t f off = off := if_neg hc
    unfold FieldsWrite at h
    unfold fieldsVarLen
    simp only [hplace, lyPad_self, List.append_nil] at h
    rw [List.map_cons, List.sum_cons]
    by_cases hrsv : f.rsv > 0
    · simp only [if_pos hrsv] at h ⊢
      have hlen := ih hfs' h
      rw [List.length_append, Int.natCast_add, length_reserved ts hrsv] at hlen
      omega
    · simp only [if_neg hrsv] at h ⊢
      cases vs with
      | nil => exact h.elim
      | cons v vs =>
        obtain ⟨bs, hw, -, h⟩ := h
        have hpart := hw.length_var (hacc.field ht hfs) (by omega) (hst f hf)
        have hlen := ih hfs' h
        rw [List.length_append] at hlen
        push_cast at hlen ⊢
        omega

theorem varLen_c (hacc : Accepted ts) (ht : t ∈ ts) (hc : t.kind = .cAbi)
    (hvar : lyTypeHasVar t = false) (vs : List Val) : varLen ts left t vs = 0 := by
  induction left generalizing t vs with
  | zero => rfl
  | succ left ih =>
    show fieldsVarLen (varLen ts left) ts t.fs vs = 0
    have hvalue : ∀ f ∈ t.fs, ∀ v, valueVarLen (varLen ts left) ts f v = 0 := by
      intro f hf v
      obtain ⟨done, rest, hfs⟩ := List.append_of_mem hf
      unfold valueVarLen
      split
      · rfl
      · refine if_neg fun hv => ?_
        exact absurd (lyTypeHasVar_iff.2 ⟨f, hf, hv⟩) (by simp [hvar])
      · split
        · next n hn =>
          obtain ⟨hkind, hfix⟩ := (hacc.field ht hfs).nested_fixed hn
          exact ih (mem_of_lyType hn) (hkind.trans hc) (hfix hc) _
        · rfl
    generalize t.fs = fs at hvalue
    induction fs generalizing vs with
    | nil => rfl
    | cons f fs ihf =>
      have hrest := fun vs => ihf vs fun g hg => hvalue g (List.mem_cons_of_mem f hg)
      unfold fieldsVarLen
      split_ifs
      · exact hrest vs
      · cases vs with
        | nil => rfl
        | cons v vs =>
          show valueVarLen _ ts f v + fieldsVarLen _ ts fs vs = 0
          rw [hvalue f List.mem_cons_self, hrest]

/-- The length is the size and the lengths of the variable fields, where these stand last. -/
theorem writes_length (hacc : Accepted ts) (ht : t ∈ ts) (hs : Straight ts left t)
    (hvar : t.kind = .cAbi → lyTypeHasVar t = false) (h : Writes ex ts left t vs bs) :
    (bs.length : Int) = lyTypeSize ts lyLevels t + varLen ts left t vs := by
  by_cases hc : t.kind = .cAbi
  · rw [writes_length_c hacc ht hc (hvar hc) h, varLen_c hacc ht hc (hvar hc)]
    simp
  · induction left generalizing t vs bs with
    | zero => exact h.elim
    | succ left ih =>
      have hsize := (hs.size_eq hacc ht hc).1
      have hnested := hs.2
      have hst : ∀ f ∈ t.fs, ∀ n vs bs, lyType ts f.ty = some n → Writes ex ts left n vs bs →
          (bs.length : Int) = lyTypeSize ts lyLevels n + varLen ts left n vs := by
        intro f hf n vs bs hn hw
        obtain ⟨done, rest, hfs⟩ := List.append_of_mem hf
        have hkind := (hacc.field ht hfs).kind_eq hn
        exact ih (mem_of_lyType hn) (hnested f hf n hn) (fun h => absurd (hkind ▸ h) hc) hw
          (by rwa [hkind])
      rw [hsize, fieldsWrite_length hacc ht hc hst (List.nil_append t.fs).symm h]
      simp [varLen]

/-! ## Bounds -/

/-- What a field takes is inside what is written. -/
structure FieldIn (st : LyT → List Val → List UInt8 → Prop) (ts : List LyT) (t : LyT)
    (out : List UInt8) (i : Nat) (f : LyF) : Prop where
  reserved : f.rsv ≤ out.length
  fixed : f.ty = bytesTy → strIsInt f.len = true → strParseInt f.len ≤ out.length
  offset : t.kind = .cAbi → lyRoundExpr ts t i ≤ out.length
  nested : ∀ n, lyType ts f.ty = some n → ∃ vs bs, st n vs bs ∧ bs.length ≤ out.length

theorem fieldsWrite_in (hacc : Accepted ts) (ht : t ∈ ts)
    (hst : ∀ f ∈ t.fs, ∀ n vs bs, lyType ts f.ty = some n → t.kind = .cAbi → st n vs bs →
      (bs.length : Int) = lyTypeSize ts lyLevels n)
    (hfs : t.fs = done ++ fs) (hplace : InPlace ts t done off acc)
    (h : FieldsWrite st ex ts t fs vs env off acc out) {mid : List LyF}
    (hmid : fs = mid ++ f :: rest) : FieldIn st ts t out (done ++ mid).length f := by
  induction fs generalizing done vs env off acc mid with
  | nil => simp at hmid
  | cons g fs ih =>
    have hg : g ∈ t.fs := by simp [hfs]
    have hfs' : t.fs = (done ++ [g]) ++ fs := by simp [hfs]
    have hok := hacc.field ht hfs
    have hoff : t.kind = .cAbi →
        ((acc ++ lyPad off (lyPlace ts t g off)).length : Int) = lyRoundExpr ts t done.length :=
      fun hc => by
        obtain ⟨heq, hlen⟩ := hplace.pad hc (hacc.not_variable ht hc hfs) hfs
        rw [hlen, heq]
    unfold FieldsWrite at h
    by_cases hrsv : g.rsv > 0
    · simp only [if_pos hrsv] at h
      have hnext := hplace.step hfs hok fun _ _ => length_reserved ts hrsv
      cases mid with
      | nil =>
        cases hmid
        obtain ⟨more, rfl⟩ := h.extends
        rw [List.append_nil]
        constructor
        · simp
          omega
        · intro hty
          rw [(f.bare hrsv).2.1] at hty
          exact absurd hty (by decide)
        · intro hc
          rw [← hoff hc]
          simp
          omega
        · intro n hn
          have := (nested_of_lyType hn).1
          omega
      | cons m mid =>
        cases hmid
        rw [show done ++ g :: mid = (done ++ [g]) ++ mid by simp]
        exact ih hfs' hnext h rfl
    · simp only [if_neg hrsv] at h
      cases vs with
      | nil => exact h.elim
      | cons v vs =>
        obtain ⟨bs, hw, -, h⟩ := h
        have hpart : ¬ Variable g → t.kind = .cAbi → (bs.length : Int) = lyWidth ts g :=
          fun hvar hc => hw.length_eq hok (by omega) hvar fun n vs bs hn =>
            hst g hg n vs bs hn hc
        have hnext := hplace.step hfs hok hpart
        cases mid with
        | nil =>
          cases hmid
          obtain ⟨more, rfl⟩ := h.extends
          rw [List.append_nil]
          constructor
          · omega
          · intro hty hint
            cases hw with
            | int hbits =>
              rw [hty, lyIntBits_bytesTy] at hbits
              omega
            | bytes _ _ hn =>
              rw [lyLen, if_pos hint] at hn
              simp
              omega
            | nested _ hne => exact absurd hty hne
          · intro hc
            rw [← hoff hc]
            simp
            omega
          · intro n hn
            obtain ⟨-, hbits, hty⟩ := nested_of_lyType hn
            cases hw with
            | int hpos => omega
            | bytes heq => exact absurd heq hty
            | nested _ _ m hm vs _ hsub =>
              rw [hn] at hm
              cases hm
              refine ⟨vs, bs, hsub, ?_⟩
              simp
              omega
        | cons m mid =>
          cases hmid
          rw [show done ++ g :: mid = (done ++ [g]) ++ mid by simp]
          exact ih hfs' hnext h rfl

/-- A C type's size with a variable field last: its offset, rounded up. -/
theorem lySizeAt_last (hc : t.kind = .cAbi) (hdone : ∀ g ∈ done, 0 ≤ lyFsize ts lyLevels g)
    (hf : lyFsize ts lyLevels f < 0) (off : Int) :
    lySizeAt (lyAlign ts lyLevels) (lyFsize ts lyLevels) t (done ++ [f]) off =
      lyRound (lyRound (lyEndAt ts done off) (lyAlign ts lyLevels f))
        (lyTypeAlign (lyAlign ts lyLevels) t) := by
  induction done generalizing off with
  | nil => simp [lySizeAt, lyEndAt, hc, hf]
  | cons d done ih =>
    have hd := hdone d List.mem_cons_self
    have hrest := ih fun g hg => hdone g (List.mem_cons_of_mem d hg)
    simp only [List.cons_append, lySizeAt, lyEndAt, hc, if_true, if_neg (not_lt.2 hd), hrest]

theorem Accepted.size_le (hacc : Accepted ts) (ht : t ∈ ts) (hc : t.kind = .cAbi)
    (hvar : lyTypeHasVar t = true) : ∃ done f, t.fs = done ++ [f] ∧ Variable f ∧
      lyTypeSize ts lyLevels t ≤ lyRoundExpr ts t done.length + 7 := by
  obtain ⟨f, hf, hv⟩ := lyTypeHasVar_iff.1 hvar
  obtain ⟨done, rest, hfs⟩ := List.append_of_mem hf
  have hok := hacc.field ht hfs
  have hlast := List.isEmpty_iff.1 (hok.last_of_variable hc hv)
  rw [hlast] at hfs
  have hdone : ∀ g ∈ done, 0 ≤ lyFsize ts lyLevels g := fun g hg =>
    hacc.size_nonneg ht hc (by rw [hfs]; exact List.mem_append_left _ hg)
      (hacc.not_variable ht hc hfs g hg)
  have hneg : lyFsize ts lyLevels f < 0 := by
    cases hok with
    | reserved hrsv => exact absurd (f.bare hrsv).2.2.2 hv.1
    | int _ _ hlen => exact absurd hlen hv.1
    | fixed _ _ hint => exact absurd hv.2 (by simp [hint])
    | var hrsv hty hlen hint => rw [lyFsize_var hrsv hty hlen hint]; decide
    | nested _ _ _ hlen => exact absurd hlen hv.1
  have halign : lyTypeAlign (lyAlign ts lyLevels) t ≤ 8 :=
    lyTypeAlign_le (by decide) fun g _ => (lyAlign_bounds ts lyLevels g).2
  have hround := lyRound_le (lyRound (lyEndAt ts done 0) (lyAlign ts lyLevels f))
    (lyTypeAlign_pos (lyAlign ts lyLevels) t)
  refine ⟨done, f, hfs, hv, ?_⟩
  rw [lyTypeSize_eq (hacc.within ht), hfs, lySizeAt_last hc hdone hneg, lyRoundExpr_eq hfs]
  omega

/-- The sizes and offsets of a type that was written are those of a list. -/
theorem writes_bounded (hacc : Accepted ts) (ht : t ∈ ts) (h : Writes ex ts left t vs bs)
    (hlen : bs.length ≤ listMax) : Bounded ts left t := by
  induction left generalizing t vs bs with
  | zero => exact h.elim
  | succ left ih =>
    have hin : ∀ done f rest, t.fs = done ++ f :: rest →
        FieldIn (Writes ex ts left) ts t bs done.length f := by
      intro done f rest hfs
      have hst : ∀ f ∈ t.fs, ∀ n vs bs, lyType ts f.ty = some n → t.kind = .cAbi →
          Writes ex ts left n vs bs → (bs.length : Int) = lyTypeSize ts lyLevels n := by
        intro f hf n vs bs hn hc hw
        obtain ⟨done, rest, hfs⟩ := List.append_of_mem hf
        obtain ⟨hkind, hfix⟩ := (hacc.field ht hfs).nested_fixed hn
        exact writes_length_c hacc (mem_of_lyType hn) (hkind.trans hc) (hfix hc) hw
      have := fieldsWrite_in hacc ht hst (List.nil_append t.fs).symm .nil h hfs
      rwa [List.nil_append] at this
    have hmem : ∀ f ∈ t.fs, ∃ i, FieldIn (Writes ex ts left) ts t bs i f := by
      intro f hf
      obtain ⟨done, rest, hfs⟩ := List.append_of_mem hf
      exact ⟨_, hin done f rest hfs⟩
    have hmax := hlen
    unfold listMax at hmax
    refine ⟨⟨?_, ?_, ?_, ?_⟩, ?_⟩
    · intro f hf
      obtain ⟨i, hi⟩ := hmem f hf
      have := hi.reserved
      omega
    · intro f hf hty hint
      obtain ⟨i, hi⟩ := hmem f hf
      have := hi.fixed hty hint
      omega
    · intro hc done f rest hfs
      have := (hin done f rest hfs).offset hc
      omega
    · intro hc
      cases hvar : lyTypeHasVar t with
      | false =>
        have hsize : (bs.length : Int) = lyTypeSize ts lyLevels t :=
          writes_length_c hacc ht hc hvar h
        omega
      | true =>
        obtain ⟨done, f, hfs, -, hle⟩ := hacc.size_le ht hc hvar
        have := (hin done f [] hfs).offset hc
        omega
    · intro f hf n hn
      obtain ⟨i, hi⟩ := hmem f hf
      obtain ⟨vs', bs', hw, hle⟩ := hi.nested n hn
      exact ih (mem_of_lyType hn) hw (hle.trans hlen)

end Layout
