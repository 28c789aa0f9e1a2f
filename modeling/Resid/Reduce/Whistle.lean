import Mathlib.Data.List.ReduceOption
import Resid.Lib.Dickson
import Resid.Reduce.IntHelpers
import Resid.Reduce.StrLit

/-!
# The whistle

A call with known arguments is specialised: the function's body is reduced with them bound, and
calls met there are specialised in turn.  The whistle compares a call with the specialisations it
is inside of, and gives up the positions that have changed when an earlier one embeds in it.

    integers of one sign by magnitude, strings by length: a wqo            (wqo_rdEmbeds)
    patterns of integers and strings are well-quasi-ordered                (wqo_embeds)
    an entry of the history answers with its values when it embeds         (answer_histEntry)

## Algorithm

A pattern is seen as one `Option` for each parameter, the type and value specialised on
(`picks`); masks, lists of known values and history entries are read off it.
-/

namespace Reduce

open Runtime IntRange Dickson

/-! ## Types and values of one parameter -/

def rdIntFits (v t : Str) : Bool :=
  let h := rdIntHead t
  if h = [] then false
  else
    let neg := strStartsWith v "-".toList
    let w := rdIw t
    if rdSmall v = false then rdWfits (rdW v) t
    else if w ≥ 64 then !neg || h == "Int".toList
    else
      let x := strParseInt v
      if h = "UInt".toList then !neg && x >>> w.toNat == 0
      else
        let half : Int := 2 ^ (w - 1).toNat
        if neg then decide (x ≥ 0 - half) else decide (x < half)

/-- The type a value of type `have` has in a slot of type `want`, for integers and equal types. -/
def rdCoerce (hv want : Str) : Str :=
  let h := rdNormTy hv
  let w := rdNormTy want
  if h = [] ∨ w = [] then []
  else if h = w then w
  else if rdIsIntTy h = true ∧ rdIsIntTy w = true then
    if rdIntSigned h ≠ rdIntSigned w then [] else if rdIw w < rdIw h then [] else w
  else []

def rdCoerceV (hv want v : Str) : Str :=
  let c := rdCoerce hv want
  if c ≠ [] then c
  else
    let h := rdNormTy hv
    let w := rdNormTy want
    if rdIsIntTy h = true ∧ rdIsIntTy w = true ∧ rdIntFits v w = true then w else []

def rdMaxLit : Nat := 4096

def rdRenderInt (v : Str) : Str :=
  let n := strLen v
  let neg := strStartsWith v "-".toList
  let digits := if neg then n - 1 else n
  if v = "-9223372036854775808".toList then "((Int)(-9223372036854775807 - 1))".toList
  else if digits > 18 then
    if neg then "((Int)(".toList ++ v ++ "))".toList else "((Int)".toList ++ v ++ ")".toList
  else if neg then "(".toList ++ v ++ ")".toList
  else v

/-- A value as a literal of its type, empty when it has none. -/
def rdRender (v ty : Str) : Str :=
  let t := rdNormTy ty
  if t = "Bool".toList then v
  else if t = "Int".toList then rdRenderInt v
  else if rdIsIntTy t = true then
    if rdSmall v = true then "((".toList ++ t ++ ")".toList ++ rdRenderInt v ++ ")".toList
    else if strStartsWith v "-".toList = true then
      "((".toList ++ t ++ ")(".toList ++ v ++ "))".toList
    else "((".toList ++ t ++ ")".toList ++ v ++ ")".toList
  else if t = "Str".toList then
    if strLen v > rdMaxLit then [] else if rdStrRenderable v = false then [] else rdStrLit v
  else []

/-! ## Patterns -/

/-- An argument: the type of its value, empty when it is not known, and the value. -/
structure GxArg where
  ty : Str
  v : Str
  /-- An integer is carried as its decimal text. -/
  canonical : rdIsIntTy (rdNormTy ty) = true → ∃ x, v = intText x

/-- Which arguments are specialised on, their values and types. -/
structure GXP where
  mask : Str
  vals : Str
  nk : Nat
  kvs : List Str
  kts : List Str

def GXP.empty : GXP := ⟨[], [], 0, [], []⟩

def entrySep : Char := Char.ofNat 30

def typeSep : Char := Char.ofNat 29

def valueSep : Char := Char.ofNat 28

def gxCty (pt : Str) (a : GxArg) : Str := if a.ty = [] then [] else rdCoerceV a.ty pt a.v

def gxLit (pt : Str) (a : GxArg) : Str :=
  if gxCty pt a = [] then [] else rdRender a.v (gxCty pt a)

/-- Is argument `i` specialised on?  An empty `keep` keeps all. -/
def gxKnown (keep : Str) (i : Nat) (pt : Str) (a : GxArg) : Bool :=
  gxLit pt a != [] && (keep == [] || strSlice keep i (i + 1) == "K".toList)

def gxSpPat (keep : Str) : List Str → List GxArg → Nat → GXP → GXP
  | pt :: pts, a :: as, i, acc =>
    if gxKnown keep i pt a then
      gxSpPat keep pts as (i + 1)
        ⟨acc.mask ++ "K".toList,
          acc.vals ++ gxCty pt a ++ [typeSep] ++ a.v ++ [typeSep],
          acc.nk + 1, acc.kvs ++ [a.v], acc.kts ++ [gxCty pt a]⟩
    else
      gxSpPat keep pts as (i + 1)
        ⟨acc.mask ++ "D".toList, acc.vals, acc.nk, acc.kvs, acc.kts⟩
  | _, _, _, acc => acc

/-! ## The whistle -/

def rdEmbeds (ty a b : Str) : Bool :=
  if rdIsIntTy ty = true then
    let x := strParseInt a
    let y := strParseInt b
    if x ≥ 0 ∧ y ≥ 0 then decide (x ≤ y)
    else if x < 0 ∧ y < 0 then decide (x ≥ y)
    else false
  else if ty = "Str".toList then decide (strLen a ≤ strLen b)
  else a == b

/-- The lists are of one length where this is called. -/
def rdEmbedsAll : List Str → List Str → List Str → Bool
  | t :: ts, a :: avs, b :: bvs => if rdEmbeds t a b = true then rdEmbedsAll ts avs bvs else false
  | [], _, _ => true
  | _ :: _, _, _ => false

/-- The mask that keeps a known position of `mask` whose value the ancestor has too. -/
def rdSpKeep : Str → List Str → List Str → Str → Str
  | [], _, _, acc => acc
  | c :: mask, kvs, avs, acc =>
    if c = 'D' then rdSpKeep mask kvs avs (acc ++ "D".toList)
    else
      match kvs, avs with
      | k :: kvs, a :: avs => rdSpKeep mask kvs avs (acc ++ (if k = a then "K" else "D").toList)
      | _, _ => acc

def rdSplit (csv sep : Str) : List Str := if csv = [] then [] else strSplit csv sep

def rdJoin : List Str → Nat → Str → Str → Str
  | [], _, _, acc => acc
  | x :: xs, i, sep, acc => rdJoin xs (i + 1) sep (if i = 0 then x else acc ++ sep ++ x)

/-- The search through what is left of the history, its newest entry first. -/
def rdWhistleAt (fname : Str) (p : GXP) : List Str → List Str
  | [] => []
  | e :: hist =>
    match strSplit (e ++ [entrySep]) [entrySep] with
    | name :: mask :: vals :: _ =>
      if name = fname ∧ mask = p.mask then
        let avs := rdSplit vals [valueSep]
        let avs2 := if vals = [] ∧ p.nk = 1 then [[]] else avs
        if avs2.length = p.nk ∧ rdEmbedsAll p.kts avs2 p.kvs = true then avs2
        else rdWhistleAt fname p hist
      else rdWhistleAt fname p hist
    | _ => rdWhistleAt fname p hist

/-- The values of the newest specialisation of `fname` that embed in those of `p`; none: empty. -/
def rdWhistle (hist : List Str) (fname : Str) (p : GXP) : List Str :=
  rdWhistleAt fname p hist.reverse

/-! ## Specialising a call -/

/-- What specialisation reads and writes of the reducer's state; the memo by lookup. -/
structure GS where
  hist : List Str
  memo : Str → Option Str
  nspec : Nat

/-- The limits on specialisations, in all and of one function. -/
structure RB where
  specs : Nat
  specsFn : Int

def gxStMemo (st : GS) (key v : Str) : GS :=
  { st with memo := fun k => if k = key then some v else st.memo k }

def spKey (name : Str) (p : GXP) : Str :=
  [Char.ofNat 2] ++ "sp".toList ++ [Char.ofNat 1] ++ name ++ [Char.ofNat 1] ++ p.mask ++
    [Char.ofNat 1] ++ p.vals

def cntKey (name : Str) : Str := [Char.ofNat 2] ++ "cnt".toList ++ [Char.ofNat 1] ++ name

/-- The history entry of a pattern of `name`. -/
def histEntry (name : Str) (p : GXP) : Str :=
  name ++ [entrySep] ++ p.mask ++ [entrySep] ++ rdJoin p.kvs 0 [valueSep] []

/-- The state in which the body is reduced, unless the pattern was met before or a limit is
reached. -/
def gxSpecWith (rb : RB) (name : Str) (p : GXP) (st : GS) : Option GS :=
  if (st.memo (spKey name p)).getD [] ≠ [] then none
  else if st.nspec ≥ rb.specs then none
  else
    let sname := name ++ "__rs".toList ++ intText (st.nspec + 1)
    let cnt := strParseInt ((st.memo (cntKey name)).getD "0".toList)
    if cnt ≥ rb.specsFn then none
    else
      let st1 := gxStMemo (gxStMemo st (cntKey name) (intText (cnt + 1))) (spKey name p) sname
      some { st1 with nspec := st.nspec + 1, hist := st.hist ++ [histEntry name p] }

/-- The pattern a call is specialised by: generalised against an ancestor that embeds in it. -/
def gxPlan (name : Str) (pts : List Str) (as : List GxArg) (hist : List Str) : Option GXP :=
  if pts.length ≠ as.length ∨ pts.length = 0 then none
  else
    let p0 := gxSpPat [] pts as 0 GXP.empty
    if p0.nk = 0 then none
    else
      let anc := rdWhistle hist name p0
      if anc.length > 0 then
        let pg := gxSpPat (rdSpKeep p0.mask p0.kvs anc []) pts as 0 GXP.empty
        if pg.nk = 0 then none else some pg
      else some p0

def gxSpecialize (rb : RB) (name : Str) (pts : List Str) (as : List GxArg) (st : GS) :
    Option GS :=
  (gxPlan name pts as st.hist).bind fun p => gxSpecWith rb name p st

/-! ## The relation -/

variable {name ty : Str} {pts : List Str} {ps : List Pick}

theorem rdEmbeds_int (h : rdIsIntTy ty = true) (a b : Str) :
    rdEmbeds ty a b = true ↔ Grows (strParseInt a) (strParseInt b) := by
  simp only [rdEmbeds, h, if_true]
  unfold Grows
  split_ifs with h1 h2
  · simp only [decide_eq_true_eq]
    omega
  · simp only [decide_eq_true_eq]
    omega
  · constructor
    · intro h
      cases h
    · intro h
      omega

theorem rdEmbeds_str (h : rdIsIntTy ty ≠ true) (hs : ty = "Str".toList) (a b : Str) :
    rdEmbeds ty a b = true ↔ strLen a ≤ strLen b := by
  rw [rdEmbeds, if_neg h, if_pos hs, decide_eq_true_eq]

theorem rdEmbeds_other (h : rdIsIntTy ty ≠ true) (hs : ty ≠ "Str".toList) (a b : Str) :
    rdEmbeds ty a b = true ↔ a = b := by
  rw [rdEmbeds, if_neg h, if_neg hs, beq_iff_eq]

instance (ty : Str) : IsPreorder Str fun a b => rdEmbeds ty a b = true where
  refl a := by
    by_cases h : rdIsIntTy ty = true
    · exact (rdEmbeds_int h a a).2 (refl_of Grows _)
    by_cases hs : ty = "Str".toList
    · exact (rdEmbeds_str h hs a a).2 le_rfl
    · exact (rdEmbeds_other h hs a a).2 rfl
  trans a b c := by
    by_cases h : rdIsIntTy ty = true
    · rw [rdEmbeds_int h, rdEmbeds_int h, rdEmbeds_int h]
      exact trans_of Grows
    by_cases hs : ty = "Str".toList
    · rw [rdEmbeds_str h hs, rdEmbeds_str h hs, rdEmbeds_str h hs]
      exact le_trans
    · rw [rdEmbeds_other h hs, rdEmbeds_other h hs, rdEmbeds_other h hs]
      exact Eq.trans

/-- An integer type or `Str`. -/
def Scalar (ty : Str) : Prop := rdIsIntTy ty = true ∨ ty = "Str".toList

theorem wqo_rdEmbeds (h : Scalar ty) : WellQuasiOrdered fun a b => rdEmbeds ty a b = true := by
  by_cases hi : rdIsIntTy ty = true
  · simp only [rdEmbeds_int hi]
    exact wqo_comap wqo_grows strParseInt
  · have hs : ty = "Str".toList := h.resolve_left hi
    simp only [rdEmbeds_str hi hs]
    exact wqo_comap wellQuasiOrdered_le strLen

/-! ## Patterns as picks -/

/-- What a parameter is specialised on: nothing, or a type and a value. -/
abbrev Pick := Option (Str × Str)

def pick (keep : Str) (i : Nat) (pt : Str) (a : GxArg) : Pick :=
  if gxKnown keep i pt a = true then some (gxCty pt a, a.v) else none

def picks (keep : Str) : List Str → List GxArg → Nat → List Pick
  | pt :: pts, a :: as, i => pick keep i pt a :: picks keep pts as (i + 1)
  | _, _, _ => []

def maskOf (ps : List Pick) : Str := ps.map fun o => if o.isSome then 'K' else 'D'

def ofPicks (ps : List Pick) : GXP where
  mask := maskOf ps
  vals := ps.reduceOption.flatMap fun tv => tv.1 ++ [typeSep] ++ tv.2 ++ [typeSep]
  nk := ps.reduceOption.length
  kvs := ps.reduceOption.map Prod.snd
  kts := ps.reduceOption.map Prod.fst

theorem gxSpPat_ofPicks (keep : Str) (pts : List Str) (as : List GxArg) (i : Nat)
    (qs : List Pick) :
    gxSpPat keep pts as i (ofPicks qs) = ofPicks (qs ++ picks keep pts as i) := by
  induction pts generalizing as i qs with
  | nil => simp [gxSpPat, picks]
  | cons pt pts ih =>
    cases as with
    | nil => simp [gxSpPat, picks]
    | cons a as =>
      have hsnoc : ∀ o, qs ++ o :: picks keep pts as (i + 1) =
          (qs ++ [o]) ++ picks keep pts as (i + 1) := by simp
      rw [picks, hsnoc, ← ih, gxSpPat, pick]
      by_cases hk : gxKnown keep i pt a = true
      · rw [if_pos hk, if_pos hk]
        simp [ofPicks, maskOf, List.reduceOption_append, List.append_assoc]
      · rw [if_neg hk, if_neg hk]
        simp [ofPicks, maskOf, List.reduceOption_append]

theorem gxSpPat_eq (keep : Str) (pts : List Str) (as : List GxArg) :
    gxSpPat keep pts as 0 GXP.empty = ofPicks (picks keep pts as 0) :=
  gxSpPat_ofPicks keep pts as 0 []

/-- A value whose text holds neither separator of an entry. -/
def Plain (v : Str) : Prop := entrySep ∉ v ∧ valueSep ∉ v

/-- A pick of a parameter of type `pt`. -/
def Typed (pt : Str) (o : Pick) : Prop := ∀ t v, o = some (t, v) → t = rdNormTy pt ∧ Plain v

theorem rdCoerceV_eq (hv want v : Str) :
    rdCoerceV hv want v = [] ∨ rdCoerceV hv want v = rdNormTy want := by
  simp only [rdCoerceV, rdCoerce]
  split_ifs <;> simp_all

/-- An argument that is specialised on has the parameter's type, and a plain text. -/
theorem plain_of_known {keep : Str} {i : Nat} {pt : Str} {a : GxArg}
    (hs : Scalar (rdNormTy pt)) (h : gxKnown keep i pt a = true) :
    gxCty pt a = rdNormTy pt ∧ Plain a.v := by
  have hlit : gxLit pt a ≠ [] := by
    simp only [gxKnown, Bool.and_eq_true, bne_iff_ne] at h
    exact h.1
  have hcty : gxCty pt a ≠ [] := fun he => hlit (by rw [gxLit, if_pos he])
  have hty : a.ty ≠ [] := fun he => hcty (by rw [gxCty, if_pos he])
  have heq : gxCty pt a = rdNormTy pt := by
    rw [gxCty, if_neg hty] at hcty ⊢
    exact (rdCoerceV_eq _ _ _).resolve_left hcty
  refine ⟨heq, ?_⟩
  by_cases hi : rdIsIntTy (rdNormTy pt) = true
  · -- an integer: the text of a number
    have hint : rdIsIntTy (rdNormTy a.ty) = true := by
      rw [gxCty, if_neg hty] at hcty
      simp only [rdCoerceV, rdCoerce] at hcty
      split_ifs at hcty <;> simp_all
    obtain ⟨x, hx⟩ := a.canonical hint
    rw [hx]
    constructor
    · intro hm
      rcases mem_intText hm with he | hd
      · exact absurd he (by decide)
      · exact absurd hd (by decide)
    · intro hm
      rcases mem_intText hm with he | hd
      · exact absurd he (by decide)
      · exact absurd hd (by decide)
  · -- a string: only a renderable one has a literal
    have hstr : rdNormTy pt = "Str".toList := hs.resolve_left hi
    have hren : rdStrRenderable a.v = true := by
      by_contra hr
      apply hlit
      have hnorm : rdNormTy "Str".toList = "Str".toList := by decide
      rw [gxLit, if_neg hcty, heq, hstr, rdRender]
      simp only [hnorm]
      rw [if_neg (by decide), if_neg (by decide), if_neg (by decide), if_pos trivial]
      rw [if_pos (Bool.eq_false_iff.2 hr), ite_self]
    exact ⟨not_control_of_renderable hren (by decide) (by decide),
      not_control_of_renderable hren (by decide) (by decide)⟩

theorem typed_picks {keep : Str} {as : List GxArg} (hs : ∀ pt ∈ pts, Scalar (rdNormTy pt))
    (h : as.length = pts.length) (i : Nat) : List.Forall₂ Typed pts (picks keep pts as i) := by
  induction pts generalizing as i with
  | nil => exact List.Forall₂.nil
  | cons pt pts ih =>
    cases as with
    | nil => cases h
    | cons a as =>
      rw [picks]
      refine List.Forall₂.cons ?_ (ih (fun t ht => hs t (List.mem_cons_of_mem pt ht))
        (Nat.succ.inj h) (i + 1))
      intro t v htv
      unfold pick at htv
      split_ifs at htv with hk
      cases htv
      exact plain_of_known (hs pt List.mem_cons_self) hk

/-! ## Embedding -/

/-- `p` embeds in `q`: the same positions known, and each value embeds. -/
def Embeds (p q : GXP) : Prop := p.mask = q.mask ∧ rdEmbedsAll q.kts p.kvs q.kvs = true

def Pick.value (o : Pick) : Str := (o.map Prod.snd).getD []

/-- Two picks of a parameter: both nothing, or values of which the first embeds. -/
def PickEmbeds (pt : Str) (o o' : Pick) : Prop :=
  o.isSome = o'.isSome ∧ rdEmbeds (rdNormTy pt) (Pick.value o) (Pick.value o') = true

instance (pt : Str) : IsPreorder Pick (PickEmbeds pt) where
  refl _ := ⟨rfl, refl_of (fun a b => rdEmbeds (rdNormTy pt) a b = true) _⟩
  trans _ _ _ h h' :=
    ⟨h.1.trans h'.1, trans_of (fun a b => rdEmbeds (rdNormTy pt) a b = true) h.2 h'.2⟩

theorem wqo_pickEmbeds {pt : Str} (h : Scalar (rdNormTy pt)) : WellQuasiOrdered (PickEmbeds pt) := by
  have hbool : WellQuasiOrdered fun a b : Bool => a = b := Finite.wellQuasiOrdered _
  exact wqo_comap (hbool.prod (wqo_rdEmbeds h)) fun o : Pick => (o.isSome, Pick.value o)

theorem embeds_iff {qs : List Pick} (hp : List.Forall₂ Typed pts ps)
    (hq : List.Forall₂ Typed pts qs) :
    Embeds (ofPicks ps) (ofPicks qs) ↔ Pointwise PickEmbeds pts ps qs := by
  induction hp generalizing qs with
  | nil =>
    cases hq
    exact ⟨fun _ => Pointwise.nil, fun _ => ⟨rfl, rfl⟩⟩
  | @cons t p ts ps _ _ ih =>
    cases hq with
    | @cons _ q _ qs hq1 hq2 =>
      have hrest := ih hq2
      have hiff : Embeds (ofPicks (p :: ps)) (ofPicks (q :: qs)) ↔
          PickEmbeds t p q ∧ Embeds (ofPicks ps) (ofPicks qs) := by
        cases p with
        | none =>
          cases q with
          | none =>
            have hself : PickEmbeds t none none := refl_of (PickEmbeds t) none
            exact ⟨fun h => ⟨hself, (List.cons.inj h.1).2, h.2⟩,
              fun h => ⟨congrArg ('D' :: ·) h.2.1, h.2.2⟩⟩
          | some tv => simp [Embeds, PickEmbeds, ofPicks, maskOf]
        | some tv =>
          cases q with
          | none => simp [Embeds, PickEmbeds, ofPicks, maskOf]
          | some tv' =>
            have ht : tv'.1 = rdNormTy t := (hq1 tv'.1 tv'.2 rfl).1
            simp [Embeds, PickEmbeds, Pick.value, ofPicks, maskOf, rdEmbedsAll, ht]
            tauto
      rw [hiff, hrest]
      constructor
      · exact fun h => Pointwise.cons h.1 h.2
      · rintro (_ | ⟨h1, h2⟩)
        exact ⟨h1, h2⟩

/-- The patterns of a function of integers and strings are well-quasi-ordered. -/
theorem wqo_embeds (hs : ∀ pt ∈ pts, Scalar (rdNormTy pt)) :
    WellQuasiOrdered fun ps qs : { ps : List Pick // List.Forall₂ Typed pts ps } =>
      Embeds (ofPicks ps.1) (ofPicks qs.1) := by
  intro s
  obtain ⟨m, n, hmn, h⟩ := Pointwise.exists_lt (fun pt hpt => wqo_pickEmbeds (hs pt hpt))
    (fun n => (s n).1) fun n => (s n).2.length_eq.symm
  exact ⟨m, n, hmn, (embeds_iff (s m).2 (s n).2).2 h⟩

/-! ## Entries of the history -/

theorem rdJoin_succ (xs : List Str) (sep acc : Str) (i : Nat) :
    rdJoin xs (i + 1) sep acc = acc ++ xs.flatMap (sep ++ ·) := by
  induction xs generalizing i acc with
  | nil => simp [rdJoin]
  | cons x xs ih => simp [rdJoin, ih]

theorem rdJoin_eq (xs : List Str) (sep : Str) : rdJoin xs 0 sep [] = List.intercalate sep xs := by
  cases xs with
  | nil => rfl
  | cons x xs =>
    rw [rdJoin, if_pos rfl, rdJoin_succ]
    induction xs generalizing x with
    | nil => simp
    | cons y xs ih =>
      simp only [List.flatMap_cons, List.append_assoc, ih y]
      simp [List.intercalate, List.intersperse]

theorem not_mem_join {c : Char} {xs : List Str} (h : ∀ x ∈ xs, c ∉ x) (hc : c ≠ valueSep) :
    c ∉ rdJoin xs 0 [valueSep] [] := by
  cases xs with
  | nil => simp [rdJoin]
  | cons x xs =>
    rw [rdJoin, if_pos rfl, rdJoin_succ, List.mem_append, List.mem_flatMap]
    rintro (hm | ⟨y, hy, hm⟩)
    · exact h x List.mem_cons_self hm
    · rcases List.mem_append.1 hm with hm | hm
      · exact hc (List.mem_singleton.1 hm)
      · exact h y (List.mem_cons_of_mem x hy) hm

/-- The values an entry's last field stands for, of `nk` known ones. -/
def recalled (nk : Nat) (vals : Str) : List Str :=
  if vals = [] ∧ nk = 1 then [[]] else rdSplit vals [valueSep]

theorem recalled_join {kvs : List Str} (hne : kvs ≠ []) (h : ∀ v ∈ kvs, valueSep ∉ v) :
    recalled kvs.length (rdJoin kvs 0 [valueSep] []) = kvs := by
  have hsplit : (rdJoin kvs 0 [valueSep] []).splitOn valueSep = kvs := by
    rw [rdJoin_eq, List.splitOn_intercalate _ h hne]
  rw [recalled]
  by_cases hnil : rdJoin kvs 0 [valueSep] [] = []
  · rw [hnil] at hsplit ⊢
    have hone : kvs = [[]] := hsplit.symm
    rw [if_pos ⟨rfl, by rw [hone]; rfl⟩, hone]
  · rw [if_neg fun h => hnil h.1, rdSplit, if_neg hnil, strSplit_single, hsplit]

theorem strSplit_entry {mask vals : Str} (hn : entrySep ∉ name) (hm : entrySep ∉ mask)
    (hv : entrySep ∉ vals) :
    strSplit (name ++ [entrySep] ++ mask ++ [entrySep] ++ vals ++ [entrySep]) [entrySep] =
      [name, mask, vals, []] := by
  have hjoin : name ++ [entrySep] ++ mask ++ [entrySep] ++ vals ++ [entrySep] =
      List.intercalate [entrySep] [name, mask, vals, []] := by
    simp [List.intercalate, List.intersperse]
  rw [hjoin, strSplit_single, List.splitOn_intercalate _ ?_ (List.cons_ne_nil _ _)]
  intro x hx
  simp only [List.mem_cons, List.not_mem_nil, or_false] at hx
  rcases hx with rfl | rfl | rfl | rfl
  · exact hn
  · exact hm
  · exact hv
  · exact List.not_mem_nil

theorem not_mem_maskOf {c : Char} (hk : c ≠ 'K') (hd : c ≠ 'D') (ps : List Pick) :
    c ∉ maskOf ps := by
  intro h
  obtain ⟨o, -, ho⟩ := List.mem_map.1 h
  split_ifs at ho
  · exact hk ho.symm
  · exact hd ho.symm

theorem plain_of_mem (h : List.Forall₂ Typed pts ps) {t v : Str} (hm : some (t, v) ∈ ps) :
    Plain v := by
  induction h with
  | nil => cases hm
  | cons hr _ ih =>
    rcases List.mem_cons.1 hm with he | hm
    · exact (hr t v he.symm).2
    · exact ih hm

theorem plain_kvs (h : List.Forall₂ Typed pts ps) : ∀ v ∈ (ofPicks ps).kvs, Plain v := by
  intro v hv
  obtain ⟨⟨t, v'⟩, htv, rfl⟩ := List.mem_map.1 hv
  exact plain_of_mem h (List.reduceOption_mem_iff.1 htv)

theorem nk_eq_count (ps : List Pick) : (ofPicks ps).nk = (ofPicks ps).mask.count 'K' := by
  show ps.reduceOption.length = (maskOf ps).count 'K'
  induction ps with
  | nil => rfl
  | cons o ps ih =>
    cases o with
    | none => simp [maskOf, List.reduceOption_cons_of_none, ih] at *
    | some tv => simp [maskOf, List.reduceOption_cons_of_some, ih] at *

theorem strSplit_histEntry (hname : entrySep ∉ name) (h : List.Forall₂ Typed pts ps) :
    strSplit (histEntry name (ofPicks ps) ++ [entrySep]) [entrySep] =
      [name, (ofPicks ps).mask, rdJoin (ofPicks ps).kvs 0 [valueSep] [], []] :=
  strSplit_entry hname (not_mem_maskOf (by decide) (by decide) ps)
    (not_mem_join (fun v hv => (plain_kvs h v hv).1) (by decide))

/-! ## What the whistle finds -/

/-- The values of an entry when it is one of `fname` that embeds in `p`. -/
def answer (fname : Str) (p : GXP) (e : Str) : Option (List Str) :=
  match strSplit (e ++ [entrySep]) [entrySep] with
  | name :: mask :: vals :: _ =>
    if (name = fname ∧ mask = p.mask) ∧ (recalled p.nk vals).length = p.nk ∧
        rdEmbedsAll p.kts (recalled p.nk vals) p.kvs = true then
      some (recalled p.nk vals)
    else none
  | _ => none

theorem rdWhistleAt_cons (fname : Str) (p : GXP) (e : Str) (hist : List Str) :
    rdWhistleAt fname p (e :: hist) = (answer fname p e).getD (rdWhistleAt fname p hist) := by
  rw [rdWhistleAt, answer]
  match strSplit (e ++ [entrySep]) [entrySep] with
  | [] => rfl
  | [_] => rfl
  | [_, _] => rfl
  | name :: mask :: vals :: _ =>
    show (if name = fname ∧ mask = p.mask then
        if (recalled p.nk vals).length = p.nk ∧ rdEmbedsAll p.kts (recalled p.nk vals) p.kvs = true then
          recalled p.nk vals
        else rdWhistleAt fname p hist
      else rdWhistleAt fname p hist) = _
    by_cases hnm : name = fname ∧ mask = p.mask
    · by_cases hemb : (recalled p.nk vals).length = p.nk ∧
          rdEmbedsAll p.kts (recalled p.nk vals) p.kvs = true
      · simp only [if_pos hnm, if_pos hemb, if_pos (And.intro hnm hemb), Option.getD_some]
      · simp only [if_pos hnm, if_neg hemb, if_neg fun h => hemb (And.right h), Option.getD_none]
    · simp only [if_neg hnm, if_neg fun h => hnm (And.left h), Option.getD_none]

theorem rdWhistleAt_eq (fname : Str) (p : GXP) (hist : List Str) :
    rdWhistleAt fname p hist = (hist.findSome? (answer fname p)).getD [] := by
  induction hist with
  | nil => rfl
  | cons e hist ih =>
    rw [rdWhistleAt_cons, List.findSome?_cons, ih]
    cases answer fname p e with
    | none => rfl
    | some avs => rfl

theorem rdWhistle_eq (hist : List Str) (fname : Str) (p : GXP) :
    rdWhistle hist fname p = (hist.reverse.findSome? (answer fname p)).getD [] :=
  rdWhistleAt_eq fname p hist.reverse

theorem length_answer {fname : Str} {p : GXP} {e : Str} {avs : List Str}
    (h : answer fname p e = some avs) : avs.length = p.nk := by
  unfold answer at h
  split at h
  · split_ifs at h with hc
    cases h
    exact hc.2.1
  · cases h

/-- An entry of the function answers when it embeds, with its values. -/
theorem answer_histEntry (hname : entrySep ∉ name) {qs : List Pick}
    (hp : List.Forall₂ Typed pts ps) (hne : (ofPicks qs).nk ≠ 0) :
    answer name (ofPicks qs) (histEntry name (ofPicks ps)) =
      if (ofPicks ps).mask = (ofPicks qs).mask ∧
          rdEmbedsAll (ofPicks qs).kts (ofPicks ps).kvs (ofPicks qs).kvs = true then
        some (ofPicks ps).kvs
      else none := by
  rw [answer, strSplit_histEntry hname hp]
  by_cases hmask : (ofPicks ps).mask = (ofPicks qs).mask
  · have hnk : (ofPicks qs).nk = (ofPicks ps).kvs.length := by
      rw [nk_eq_count, ← hmask, ← nk_eq_count]
      simp [ofPicks]
    have hkvs : (ofPicks ps).kvs ≠ [] := by
      intro h0
      rw [hnk, h0] at hne
      exact hne rfl
    have hrec := recalled_join hkvs fun v hv => (plain_kvs hp v hv).2
    simp only [hnk, hrec, hmask, true_and]
  · exact (if_neg fun h => hmask h.1.2).trans (if_neg fun h => hmask h.1).symm

/-- An entry of another function does not answer. -/
theorem answer_other {fname r : Str} (hname : entrySep ∉ name) (hne : name ≠ fname) (p : GXP) :
    answer fname p (name ++ entrySep :: r) = none := by
  have hsplit : strSplit (name ++ entrySep :: r ++ [entrySep]) [entrySep] =
      name :: (r ++ [entrySep]).splitOn entrySep := by
    rw [strSplit_single, List.append_assoc, List.cons_append]
    rw [List.splitOn_append_cons_self, List.splitOn_eq_singleton hname]
    rfl
  rw [answer, hsplit]
  match (r ++ [entrySep]).splitOn entrySep with
  | [] => rfl
  | [_] => rfl
  | _ :: _ :: _ => exact if_neg fun h => hne h.1.1

end Reduce
