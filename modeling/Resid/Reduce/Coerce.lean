import Resid.Reduce.ListText
import Resid.Reduce.Whistle

/-!
# The flow of known values

What type a known value has in a slot, for values of every type: by its own type alone
(`rdCoerce`), or with the value's text at hand (`rdCoerceV`).  Both go through the
arguments of a type, which are shorter texts than the type itself.

    rdCoerceV hv want v = [] or the type of the slot                   (rdCoerceV_cases)
-/

namespace Reduce.Flow

open Runtime Reduce

/-! ## Parts of a type -/

/-- Inner type of `Head(T)`, empty when `t` is not that constructor. -/
def rdInner (t head : Str) : Str :=
  if strStartsWith t head = true then strSlice t (strLen head) (strLen t - 1) else []

/-- The arguments in what is left, `cur` the one being read and `depth` the open brackets. -/
def rdTargsAt : Str → Str → Int → List Str
  | [], cur, _ => [strTrim cur]
  | c :: r, cur, depth =>
    if c = ',' ∧ depth = 0 then strTrim cur :: rdTargsAt r [] depth
    else rdTargsAt r (cur ++ [c])
      (if c = '(' then depth + 1 else if c = ')' then depth - 1 else depth)

/-- The type arguments of `Head(A, B, ...)`, split at the top level. -/
def rdTargs (t : Str) : List Str :=
  let o := strFindChar t '('
  if o < 0 ∨ strEndsWith t ")".toList = false then []
  else rdTargsAt (strSlice t (o.toNat + 1) (strLen t - 1)) [] 0

/-! ## They are shorter -/

theorem length_strTrim_le (s : Str) : (strTrim s).length ≤ s.length := by
  have hright : (strTrim s).length ≤ (s.dropWhile isSpace).length :=
    (List.rdropWhile_prefix isSpace (s.dropWhile isSpace)).length_le
  have hleft : (s.dropWhile isSpace).length ≤ s.length := (List.dropWhile_sublist _).length_le
  omega

theorem length_strSlice_le (s : Str) (i j : Nat) : (strSlice s i j).length ≤ j - i := by
  unfold strSlice
  rw [List.length_take]
  exact Nat.min_le_left _ _

theorem length_rdInner_lt {t head : Str} (h : strStartsWith t head = true) (hne : head ≠ []) :
    (rdInner t head).length < t.length := by
  have hle : head.length ≤ t.length := (List.isPrefixOf_iff_prefix.1 h).length_le
  have hpos : 0 < head.length := List.length_pos_iff.2 hne
  have hslice := length_strSlice_le t (strLen head) (strLen t - 1)
  unfold rdInner
  rw [if_pos h]
  unfold strLen at hslice ⊢
  omega

theorem length_mem_rdTargsAt {r cur : Str} {depth : Int} {x : Str}
    (h : x ∈ rdTargsAt r cur depth) : x.length ≤ cur.length + r.length := by
  fun_induction rdTargsAt r cur depth with
  | case1 cur depth =>
    rw [List.mem_singleton.1 h]
    exact length_strTrim_le cur
  | case2 c r cur depth hc ih =>
    rcases List.mem_cons.1 h with rfl | h
    · have htrim := length_strTrim_le cur
      omega
    · have hrest := ih h
      rw [List.length_nil] at hrest
      rw [List.length_cons]
      omega
  | case3 cur depth c r hc ih =>
    have hrest := ih h
    rw [List.length_append, List.length_singleton] at hrest
    rw [List.length_cons]
    omega

theorem length_mem_rdTargs {t x : Str} (h : x ∈ rdTargs t) : x.length < t.length := by
  unfold rdTargs at h
  dsimp only at h
  split at h
  · cases h
  · next hc =>
    have hx := length_mem_rdTargsAt h
    have hslice := length_strSlice_le t ((strFindChar t '(').toNat + 1) (strLen t - 1)
    have hend : ∃ p, p ++ [')'] = t := by
      have hsuf : strEndsWith t ")".toList = true := by
        rw [← Bool.not_eq_false]
        exact fun hf => hc (Or.inr hf)
      exact List.isSuffixOf_iff_suffix.1 hsuf
    obtain ⟨p, hp⟩ := hend
    have hpos := congrArg List.length hp
    have hlen : strLen t = t.length := rfl
    rw [List.length_append, List.length_singleton] at hpos
    rw [List.length_nil] at hx
    omega

theorem splitAt_ne_nil (sep s : Str) (skip : Nat) (cur : Str) : splitAt sep s skip cur ≠ [] := by
  fun_induction splitAt sep s skip cur with
  | case1 => exact List.cons_ne_nil _ _
  | case2 => exact List.cons_ne_nil _ _
  | case3 c s cur hp ih => exact ih
  | case4 c s cur skip ih => exact ih

/-- Replacing by something no longer makes a text no longer. -/
theorem length_intercalate_splitAt (sep new : Str) (hne : sep ≠ []) (hle : new.length ≤ sep.length)
    (s : Str) (skip : Nat) (cur : Str) :
    (List.intercalate new (splitAt sep s skip cur)).length ≤ cur.length + (s.length - skip) := by
  fun_induction splitAt sep s skip cur with
  | case1 cur => simp [List.intercalate]
  | case2 c s cur hp ih =>
    have hpre : sep.length ≤ (c :: s).length := (List.isPrefixOf_iff_prefix.1 hp).length_le
    rw [List.intercalate_cons_of_ne_nil (splitAt_ne_nil _ _ _ _), List.length_append,
      List.length_append]
    rw [List.length_nil] at ih
    rw [List.length_cons] at hpre ⊢
    omega
  | case3 c s cur hp ih =>
    rw [List.length_append, List.length_singleton] at ih
    rw [List.length_cons]
    omega
  | case4 c s cur skip ih =>
    rw [List.length_cons]
    omega

theorem length_rdNormTy_le (t : Str) : (rdNormTy t).length ≤ t.length := by
  unfold rdNormTy
  split
  · exact Nat.le_refl _
  · split
    · next h =>
      rw [h]
      decide
    · split
      · next h =>
        rw [h]
        decide
      · have hsplit := length_intercalate_splitAt "Int(64)".toList "Int".toList
          (by decide) (by decide) t 0 []
        simpa [strReplace, strSplit] using hsplit

/-! ## Flow -/

/-- The type a known value of type `hv` takes in a slot declared `want`. -/
def rdCoerce (hv want : Str) : Str :=
  let h := rdNormTy hv
  let w := rdNormTy want
  if h = [] ∨ w = [] then []
  else if h = w then w
  else if rdIsIntTy h = true ∧ rdIsIntTy w = true then
    if rdIntSigned h ≠ rdIntSigned w then [] else if rdIw w < rdIw h then [] else w
  else if h = "List(?)".toList ∧ strStartsWith w "List(".toList = true then w
  else if h = "λ".toList ∧ strContains w " closure(".toList = true then w
  else if h = "{}".toList ∧
      (strStartsWith w "Map(".toList = true ∨ strStartsWith w "Set(".toList = true) then w
  else if h = "ListBuf(?)".toList ∧ strStartsWith w "ListBuf(".toList = true ∧
      (rdTargs w).length = 1 then w
  else if h = "Option(_)".toList ∧ strStartsWith w "Option(".toList = true then w
  else
    let ho := strFindChar h '('
    if ho > 0 ∧ strContains h "_".toList = true ∧
        strSlice h 0 (ho.toNat + 1) = strSlice w 0 (min (ho.toNat + 1) (strLen w)) then
      if (rdTargs h).length = (rdTargs w).length ∧
          ((rdTargs h).attach.zip (rdTargs w)).all (fun p =>
            p.1.1 == "_".toList || rdCoerce p.1.1 p.2 == p.2) = true then w
      else []
    else []
termination_by hv.length
decreasing_by
  have hp := length_mem_rdTargs p.1.2
  have hn := length_rdNormTy_le hv
  exact Nat.lt_of_lt_of_le hp hn

theorem length_rdInner_norm_lt {hv head : Str} (h : strStartsWith (rdNormTy hv) head = true)
    (hne : head ≠ []) : (rdInner (rdNormTy hv) head).length < hv.length :=
  Nat.lt_of_lt_of_le (length_rdInner_lt h hne) (length_rdNormTy_le hv)

/-- As `rdCoerce`, where the value's text is at hand: an integer that fits flows in, and so do
a list, an option or a result whose items and payloads do. -/
def rdCoerceV (hv want v : Str) : Str :=
  let c := rdCoerce hv want
  if c ≠ [] then c
  else
    let h := rdNormTy hv
    let w := rdNormTy want
    if rdIsIntTy h = true ∧ rdIsIntTy w = true ∧ rdIntFits v w = true then w
    else if _hl : strStartsWith h "List(".toList = true ∧ strStartsWith w "List(".toList = true ∧
        (rdTargs w).length = 1 then
      if (rdDec v).all (fun x =>
          rdCoerceV (rdInner h "List(".toList) (rdInner w "List(".toList) x != []) = true then w
      else []
    else if _ho : strStartsWith h "Option(".toList = true ∧
        strStartsWith w "Option(".toList = true then
      if v = "N".toList then w
      else if rdCoerceV (rdInner h "Option(".toList) (rdInner w "Option(".toList)
          (strSlice v 1 (strLen v)) ≠ [] then w
      else []
    else if strStartsWith h "Result(".toList = true ∧ strStartsWith w "Result(".toList = true then
      match _hs : rdTargs h, rdTargs w with
      | [h0, h1], [w0, w1] =>
        if rdNth v 0 = "Ok".toList then
          if (h1 = "_".toList ∨ rdCoerce h1 w1 = w1) ∧ h0 ≠ "_".toList ∧
              rdCoerceV h0 w0 (rdNth v 1) ≠ [] then w else []
        else
          if (h0 = "_".toList ∨ rdCoerce h0 w0 = w0) ∧ h1 ≠ "_".toList ∧
              rdCoerceV h1 w1 (rdNth v 1) ≠ [] then w else []
      | _, _ => []
    else []
termination_by hv.length
decreasing_by
  · exact length_rdInner_norm_lt _hl.1 (by decide)
  · exact length_rdInner_norm_lt _ho.1 (by decide)
  · exact Nat.lt_of_lt_of_le (length_mem_rdTargs (by rw [_hs]; simp)) (length_rdNormTy_le hv)
  · exact Nat.lt_of_lt_of_le (length_mem_rdTargs (by rw [_hs]; simp)) (length_rdNormTy_le hv)

theorem flow_ite {p : Prop} [Decidable p] {a b w : Str} (ha : a = [] ∨ a = w)
    (hb : b = [] ∨ b = w) : (if p then a else b) = [] ∨ (if p then a else b) = w := by
  split
  · exact ha
  · exact hb

/-- A value that flows takes the type of its slot. -/
theorem rdCoerce_cases (hv want : Str) :
    rdCoerce hv want = [] ∨ rdCoerce hv want = rdNormTy want := by
  unfold rdCoerce
  dsimp only
  split_ifs
  all_goals first | exact Or.inl rfl | exact Or.inr rfl

theorem rdCoerceV_cases (hv want v : Str) :
    rdCoerceV hv want v = [] ∨ rdCoerceV hv want v = rdNormTy want := by
  unfold rdCoerceV
  dsimp only
  by_cases hc : rdCoerce hv want ≠ []
  · rw [if_pos hc]
    exact rdCoerce_cases hv want
  rw [if_neg hc]
  split
  · exact Or.inr rfl
  split
  · exact flow_ite (Or.inr rfl) (Or.inl rfl)
  split
  · exact flow_ite (Or.inr rfl) (flow_ite (Or.inr rfl) (Or.inl rfl))
  split
  · split
    · exact flow_ite (flow_ite (Or.inr rfl) (Or.inl rfl)) (flow_ite (Or.inr rfl) (Or.inl rfl))
    · exact Or.inl rfl
  · exact Or.inl rfl

end Reduce.Flow
