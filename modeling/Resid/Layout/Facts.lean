import Resid.Layout.Generated

/-!
# Accepted layout types

What the rules leave: each field is reserved, an integer, bytes of a constant or of a named
length, or another accepted type of the same layout, and nesting ends after 17 levels, so sizes
and alignments do not depend on the levels they are computed with.

    Accepted ts → t ∈ ts → t.fs = done ++ f :: rest → FieldOk …           (Accepted.field)
    Accepted ts → t ∈ ts → Within ts lyLevels t                           (Accepted.within)
    Within ts lyLevels t → lyTypeSize ts lyLevels t = lySizeAt …          (lyTypeSize_eq)
-/

namespace Layout

open Runtime

variable {ts : List LyT} {t : LyT} {f : LyF}

/-- A set of layout types that passes the rules. -/
def Accepted (ts : List LyT) : Prop := lyCheckAll ts ts = none

instance (ts : List LyT) : Decidable (Accepted ts) :=
  match h : lyCheckAll ts ts with
  | none => isTrue h
  | some _ => isFalse (by simp [Accepted, h])

/-! ## Kinds of fields -/

/-- A field of an accepted type, behind the fields `done`. -/
inductive FieldOk (ts : List LyT) (t : LyT) (done : List LyF) (f : LyF) (last : Bool) : Prop
  | reserved (hrsv : 0 < f.rsv)
  | int (hrsv : f.rsv = 0) (hbits : 0 < lyIntBits f.ty) (hlen : f.len = [])
  | fixed (hrsv : f.rsv = 0) (hty : f.ty = bytesTy) (hint : strIsInt f.len = true)
      (hn : 0 ≤ strParseInt f.len)
  | var (hrsv : f.rsv = 0) (hty : f.ty = bytesTy) (hlen : f.len ≠ [])
      (hint : strIsInt f.len = false) (lf : LyF) (hlf : lyField done f.len = some lf)
      (hbits : 0 < lyIntBits lf.ty) (hlast : t.kind = .cAbi → last = true)
  | nested (hrsv : f.rsv = 0) (hbits : lyIntBits f.ty = 0) (hty : f.ty ≠ bytesTy)
      (hlen : f.len = []) (n : LyT) (hn : lyType ts f.ty = some n) (hkind : n.kind = t.kind)
      (hfix : t.kind = .cAbi → 0 ≤ lyTypeSize ts lyLevels n ∧ lyTypeHasVar n = false)

theorem lyIntBits_bytesTy : lyIntBits bytesTy = 0 := by decide

variable {n : LyT} {done : List LyF} {last : Bool} {left : Nat}

theorem mem_of_lyType {name : Str} (h : lyType ts name = some n) : n ∈ ts :=
  List.mem_of_find?_eq_some h

theorem name_of_lyType {name : Str} (h : lyType ts name = some n) : n.name = name := by
  have := List.find?_some h
  exact beq_iff_eq.1 this

/-- Only a nested field's type text is the name of a layout type. -/
theorem nested_of_lyType (h : lyType ts f.ty = some n) :
    f.rsv = 0 ∧ lyIntBits f.ty = 0 ∧ f.ty ≠ bytesTy := by
  have hident := n.ident
  rw [name_of_lyType h] at hident
  refine ⟨?_, ?_, ?_⟩
  · by_contra hrsv
    exact hident.1 (f.bare (Nat.pos_of_ne_zero hrsv)).2.1
  · unfold lyIntBits
    split_ifs with h8 h16 h32 h64
    · rcases h8 with h | h <;> exact absurd hident.2 (by rw [h]; decide)
    · rcases h16 with h | h <;> exact absurd hident.2 (by rw [h]; decide)
    · rcases h32 with h | h <;> exact absurd hident.2 (by rw [h]; decide)
    · rcases h64 with h | h <;> exact absurd hident.2 (by rw [h]; decide)
    · rfl
  · intro hty
    exact absurd hident.2 (by rw [hty]; decide)

theorem lyType_bytesTy (ts : List LyT) : lyType ts bytesTy = none := by
  refine List.find?_eq_none.2 fun t _ heq => ?_
  have hident := t.ident.2
  rw [beq_iff_eq.1 heq] at hident
  exact absurd hident (by decide)

theorem lyIntBits_cases (ty : Str) :
    lyIntBits ty = 0 ∨ lyIntBits ty = 8 ∨ lyIntBits ty = 16 ∨ lyIntBits ty = 32 ∨
      lyIntBits ty = 64 := by
  unfold lyIntBits
  split_ifs <;> simp

@[simp] theorem lyFieldErr_ne (t : LyT) (f : LyF) (code : String) (msg : Str) :
    lyFieldErr t f code msg ≠ none := nofun

theorem lyCheckNested_none (h : lyCheckNested ts t f n = none) : n.kind = t.kind ∧
      (t.kind = .cAbi → 0 ≤ lyTypeSize ts lyLevels n ∧ lyTypeHasVar n = false) := by
  unfold lyCheckNested at h
  split_ifs at h with hname hkind hsize hvar
  · exact absurd h (lyFieldErr_ne _ _ _ _)
  · exact absurd h (lyFieldErr_ne _ _ _ _)
  · exact absurd h (lyFieldErr_ne _ _ _ _)
  · exact absurd h (lyFieldErr_ne _ _ _ _)
  · refine ⟨not_not.1 hkind, fun hc => ⟨?_, ?_⟩⟩
    · exact not_lt.1 fun hlt => hsize ⟨hc, hlt⟩
    · exact Bool.eq_false_iff.2 fun hv => hvar ⟨hc, hv⟩

theorem lyCheckLen_none (h : lyCheckLen t done f last = none) :
    ∃ lf, lyField done f.len = some lf ∧ 0 < lyIntBits lf.ty ∧ (t.kind = .cAbi → last = true) := by
  unfold lyCheckLen at h
  split at h
  · exact absurd h (lyFieldErr_ne _ _ _ _)
  · next lf hlf =>
    split_ifs at h with hbits hlast
    · exact absurd h (lyFieldErr_ne _ _ _ _)
    · exact absurd h (lyFieldErr_ne _ _ _ _)
    · refine ⟨lf, hlf, Nat.pos_of_ne_zero hbits, fun hc => ?_⟩
      exact Bool.eq_true_of_not_eq_false fun hl => hlast ⟨hc, hl⟩

/-- The rules behind the ones about the type's text. -/
theorem lyCheckField_none (h : lyCheckField ts t done f last = none) (hrsv : f.rsv = 0) :
    (lyIntBits f.ty = 0 → f.ty ≠ bytesTy → lyType ts f.ty ≠ none) ∧
      (f.ty = bytesTy ↔ f.len ≠ []) ∧
      (f.len ≠ [] → strIsInt f.len = false → lyCheckLen t done f last = none) ∧
      (f.len ≠ [] → strIsInt f.len = true → 0 ≤ strParseInt f.len) ∧
      ∀ n, lyType ts f.ty = some n → lyCheckNested ts t f n = none := by
  simp only [lyCheckField] at h
  rw [if_neg (by omega)] at h
  generalize hlen : (if f.len ≠ [] ∧ strIsInt f.len = false then lyCheckLen t done f last
    else none) = c at h
  cases c with
  | some e => split_ifs at h <;> exact absurd h nofun
  | none =>
    split_ifs at h with _ _ _ _ hkind hneed happly hneg
    all_goals try exact absurd h (lyFieldErr_ne _ _ _ _)
    refine ⟨?_, ?_, ?_, ?_, ?_⟩
    · exact fun hb hty hnone => hkind ⟨hb, hty, by rw [hnone]; rfl⟩
    · constructor
      · exact fun hty hnil => hneed ⟨hty, hnil⟩
      · exact fun hne => not_not.1 fun hty => happly ⟨hty, hne⟩
    · intro hne hint
      rwa [if_pos ⟨hne, hint⟩] at hlen
    · exact fun hne hint => not_lt.1 fun hlt => hneg ⟨hne, hint, hlt⟩
    · intro n hn
      rwa [hn, Option.bind_some] at h

theorem fieldOk_of_check (h : lyCheckField ts t done f last = none) : FieldOk ts t done f last := by
  rcases Nat.eq_zero_or_pos f.rsv with hrsv | hrsv
  · obtain ⟨hkind, hlen, hvar, hneg, hnested⟩ := lyCheckField_none h hrsv
    by_cases hty : f.ty = bytesTy
    · have hne := hlen.1 hty
      cases hint : strIsInt f.len with
      | true => exact .fixed hrsv hty hint (hneg hne hint)
      | false =>
        obtain ⟨lf, hlf, hbits, hlast⟩ := lyCheckLen_none (hvar hne hint)
        exact .var hrsv hty hne hint lf hlf hbits hlast
    · have hnil : f.len = [] := not_not.1 fun hne => hty (hlen.2 hne)
      rcases Nat.eq_zero_or_pos (lyIntBits f.ty) with hbits | hbits
      · obtain ⟨n, hn⟩ := Option.ne_none_iff_exists'.1 (hkind hbits hty)
        obtain ⟨hsame, hfix⟩ := lyCheckNested_none (hnested n hn)
        exact .nested hrsv hbits hty hnil n hn hsame hfix
      · exact .int hrsv hbits hnil
  · exact .reserved hrsv

theorem FieldOk.nested_fixed (h : FieldOk ts t done f last) (hn : lyType ts f.ty = some n) :
    n.kind = t.kind ∧ (t.kind = .cAbi → lyTypeHasVar n = false) := by
  obtain ⟨hrsv, hbits, hty⟩ := nested_of_lyType hn
  cases h with
  | reserved h => omega
  | int _ h => omega
  | fixed _ h => exact absurd h hty
  | var _ h => exact absurd h hty
  | nested _ _ _ _ m hm hkind hfix =>
    rw [hn] at hm
    cases hm
    exact ⟨hkind, fun hc => (hfix hc).2⟩

theorem FieldOk.kind_eq (h : FieldOk ts t done f last) (hn : lyType ts f.ty = some n) :
    n.kind = t.kind :=
  (h.nested_fixed hn).1

theorem FieldOk.len_ne (h : FieldOk ts t done f last) (hrsv : f.rsv = 0) :
    f.len ≠ [] ↔ f.ty = bytesTy := by
  cases h with
  | reserved h => omega
  | int _ hbits hlen =>
    constructor
    · exact fun hne => absurd hlen hne
    · intro hty
      rw [hty, lyIntBits_bytesTy] at hbits
      omega
  | fixed _ hty hint =>
    refine ⟨fun _ => hty, fun _ hnil => ?_⟩
    rw [hnil] at hint
    exact absurd hint (by decide)
  | var _ hty hlen => exact ⟨fun _ => hty, fun _ => hlen⟩
  | nested _ _ hty hlen => exact ⟨fun hne => absurd hlen hne, fun h => absurd h hty⟩

/-! ## The whole set -/

theorem lyCheck_none {fs : List LyF} (h : lyCheck ts t done fs = none) : (done ++ fs ≠ []) ∧
      ∀ mid f rest, fs = mid ++ f :: rest → FieldOk ts t (done ++ mid) f rest.isEmpty := by
  induction fs generalizing done with
  | nil =>
    cases done with
    | nil => cases h
    | cons d done => exact ⟨by simp, fun mid f rest he => by simp at he⟩
  | cons g fs ih =>
    rw [lyCheck] at h
    split at h
    · cases h
    next hg =>
    obtain ⟨-, hrest⟩ := ih h
    refine ⟨by simp, fun mid f rest he => ?_⟩
    cases mid with
    | nil =>
      cases he
      rw [List.append_nil]
      exact fieldOk_of_check hg
    | cons m mid =>
      cases he
      have hok := hrest mid f rest rfl
      rwa [List.append_assoc] at hok

theorem lyCheckAll_none {xs : List LyT} (h : lyCheckAll ts xs = none) :
    ∀ t ∈ xs, lyCheck ts t [] t.fs = none ∧ lyDepth ts lyLevels t ≤ 16 := by
  induction xs with
  | nil => exact fun t ht => nomatch ht
  | cons x xs ih =>
    rw [lyCheckAll] at h
    split at h
    · cases h
    next hx =>
    split_ifs at h with hdepth htwice
    intro t ht
    rcases List.mem_cons.1 ht with rfl | ht
    · exact ⟨hx, not_lt.1 hdepth⟩
    · exact ih h t ht

theorem Accepted.field (h : Accepted ts) (ht : t ∈ ts) {rest : List LyF}
    (hfs : t.fs = done ++ f :: rest) : FieldOk ts t done f rest.isEmpty :=
  (lyCheck_none (lyCheckAll_none h t ht).1).2 done f rest hfs

/-! ## Nesting -/

/-- The types nested in `t` are nested at most `k` levels deep, `t` counted. -/
def Within (ts : List LyT) : (k : Nat) → LyT → Prop
  | 0, _ => False
  | k + 1, t => ∀ f ∈ t.fs, ∀ n, lyType ts f.ty = some n → Within ts k n

theorem le_foldl_max (g : LyF → Nat) (fs : List LyF) (best : Nat) :
    best ≤ fs.foldl (fun best f => if g f > best then g f else best) best ∧
      ∀ f ∈ fs, g f ≤ fs.foldl (fun best f => if g f > best then g f else best) best := by
  induction fs generalizing best with
  | nil => exact ⟨le_rfl, fun f hf => nomatch hf⟩
  | cons x fs ih =>
    obtain ⟨hbest, hfs⟩ := ih (if g x > best then g x else best)
    refine ⟨le_trans ?_ hbest, ?_⟩
    · split_ifs <;> omega
    · intro f hf
      rcases List.mem_cons.1 hf with rfl | hf
      · refine le_trans ?_ hbest
        split_ifs <;> omega
      · exact hfs f hf

theorem within_of_depth (hleft : left ≤ 17) (h : lyDepth ts left t ≤ 16) : Within ts left t := by
  induction left generalizing t with
  | zero => exact absurd h (by simp [lyDepth])
  | succ left ih =>
    intro f hf n hn
    apply ih (by omega)
    refine le_trans (le_of_eq_of_le ?_ ((le_foldl_max _ t.fs (17 - (left + 1))).2 f hf)) h
    rw [hn]

theorem Accepted.within (h : Accepted ts) (ht : t ∈ ts) : Within ts lyLevels t :=
  within_of_depth le_rfl (lyCheckAll_none h t ht).2

theorem lyTypeAlign_congr {a a' : LyF → Nat} (h : ∀ f ∈ t.fs, a f = a' f) :
    lyTypeAlign a t = lyTypeAlign a' t := by
  refine List.foldl_ext _ _ _ fun acc f hf => ?_
  rw [h f hf]

theorem lyAlign_stable {k : Nat} (hk : k ≤ left)
    (h : ∀ n, lyType ts f.ty = some n → Within ts k n) : lyAlign ts left f = lyAlign ts k f := by
  induction k generalizing left f with
  | zero =>
    cases left with
    | zero => rfl
    | succ left =>
      have hnone : lyType ts f.ty = none := Option.eq_none_iff_forall_not_mem.2 h
      simp [lyAlign, hnone]
  | succ k ih =>
    obtain ⟨left, rfl⟩ : ∃ m, left = m + 1 := ⟨left - 1, by omega⟩
    unfold lyAlign
    split_ifs
    · rfl
    · rfl
    · cases hn : lyType ts f.ty with
      | none => rfl
      | some n =>
        refine lyTypeAlign_congr fun g hg => ?_
        exact ih (by omega) fun m hm => h n hn g hg m hm

theorem lySizeAt_congr {a a' : LyF → Nat} {s s' : LyF → Int} {fs : List LyF}
    (halign : lyTypeAlign a t = lyTypeAlign a' t) (ha : ∀ f ∈ fs, a f = a' f)
    (hs : ∀ f ∈ fs, s f = s' f) (off : Int) : lySizeAt a s t fs off = lySizeAt a' s' t fs off := by
  induction fs generalizing off with
  | nil => simp only [lySizeAt, halign]
  | cons f fs ih =>
    have hrest := ih (fun g hg => ha g (List.mem_cons_of_mem f hg))
      (fun g hg => hs g (List.mem_cons_of_mem f hg))
    simp [lySizeAt, ha f List.mem_cons_self, hs f List.mem_cons_self, halign, hrest]

theorem lyTypeSize_stable {k : Nat} (hk : k ≤ left) (h : Within ts k t) :
    lyTypeSize ts left t = lyTypeSize ts k t := by
  induction k generalizing left t with
  | zero => exact h.elim
  | succ k ih =>
    obtain ⟨left, rfl⟩ : ∃ m, left = m + 1 := ⟨left - 1, by omega⟩
    have halign : ∀ f ∈ t.fs, lyAlign ts left f = lyAlign ts k f := fun f hf =>
      lyAlign_stable (by omega) (h f hf)
    refine lySizeAt_congr (lyTypeAlign_congr halign) halign (fun f hf => ?_) 0
    unfold lyFsizeWith
    cases hn : lyType ts f.ty with
    | none => rfl
    | some n =>
      show (if _ then _ else if _ then _ else if _ then _ else if _ then _ else
        lyTypeSize ts left n) = _
      rw [ih (by omega) (h f hf n hn)]

/-- The size from the alignments and sizes of the fields themselves. -/
theorem lyTypeSize_eq (h : Within ts lyLevels t) :
    lyTypeSize ts lyLevels t = lySizeAt (lyAlign ts lyLevels) (lyFsize ts lyLevels) t t.fs 0 := by
  have hnext := lyTypeSize_stable (Nat.le_succ lyLevels) h
  rw [← hnext]
  rfl

theorem lyAlign_nested (hrsv : f.rsv = 0) (hbits : lyIntBits f.ty = 0)
    (hn : lyType ts f.ty = some n) (h : Within ts lyLevels n) :
    lyAlign ts lyLevels f = lyTypeAlign (lyAlign ts lyLevels) n := by
  rw [show lyLevels = 16 + 1 from rfl] at h ⊢
  rw [lyAlign, if_neg (by omega), if_neg (by omega), hn]
  refine lyTypeAlign_congr fun g hg => ?_
  exact (lyAlign_stable (Nat.le_succ 16) (h g hg)).symm

end Layout
