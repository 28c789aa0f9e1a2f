import Mathlib.Data.Finite.Prod
import Resid.Reduce.Whistle

/-!
# Chains of specialisations

Inside the body of a specialised function further calls are specialised, each with the history of
those it is inside of.  A chain specialises one function of integers and strings finitely often:

    a pattern is new to the whistle, or keeps picks of one before it     (gxPlan_cases)
    a pattern met before is not reduced again                            (gxSpecWith_some)
    so the chain is finite                                               (whistle_stops_chains)
-/

namespace Reduce

open Runtime Dickson

/-! ## Generalising -/

def keepPick (p q : Pick) : Pick := if p = q then p else none

/-- The picks of `ps` that are those of `qs` too. -/
def meet (ps qs : List Pick) : List Pick := List.zipWith keepPick ps qs

/-- Each pick of `ps` is that of `qs`, or nothing. -/
def Below (ps qs : List Pick) : Prop := List.Forall₂ (fun p q => p = none ∨ p = q) ps qs

theorem below_refl (ps : List Pick) : Below ps ps := List.forall₂_same.2 fun _ _ => Or.inr rfl

theorem below_trans {ps qs rs : List Pick} (h : Below ps qs) (h' : Below qs rs) :
    Below ps rs := by
  unfold Below at h
  induction h generalizing rs with
  | nil => exact h'
  | cons hp _ ih =>
    cases h' with
    | cons hq hrest =>
      refine List.Forall₂.cons ?_ (ih hrest)
      rcases hp with rfl | rfl
      · exact Or.inl rfl
      · exact hq

theorem finite_below (qs : List Pick) : {ps | Below ps qs}.Finite := by
  induction qs with
  | nil =>
    refine (Set.finite_singleton []).subset ?_
    intro ps hps
    cases hps
    rfl
  | cons q qs ih =>
    have hpair : ({none, q} : Set Pick).Finite := Set.toFinite _
    refine (Set.Finite.image2 List.cons hpair ih).subset ?_
    intro ps hps
    cases hps with
    | @cons p _ ps _ hp hrest => exact ⟨p, hp, ps, hrest, rfl⟩

theorem meet_below {ps qs : List Pick} (h : ps.length = qs.length) : Below (meet ps qs) qs := by
  induction ps generalizing qs with
  | nil =>
    cases qs with
    | nil => exact List.Forall₂.nil
    | cons q qs => cases h
  | cons p ps ih =>
    cases qs with
    | nil => cases h
    | cons q qs =>
      refine List.Forall₂.cons ?_ (ih (Nat.succ.inj h))
      unfold keepPick
      split_ifs with he
      · exact Or.inr he
      · exact Or.inl rfl

theorem typed_meet {pts : List Str} {ps qs : List Pick} (hp : List.Forall₂ Typed pts ps)
    (h : ps.length = qs.length) : List.Forall₂ Typed pts (meet ps qs) := by
  induction hp generalizing qs with
  | nil => exact List.Forall₂.nil
  | cons hr _ ih =>
    cases qs with
    | nil => cases h
    | cons q qs =>
      refine List.Forall₂.cons ?_ (ih (Nat.succ.inj h))
      intro t v htv
      unfold keepPick at htv
      split_ifs at htv
      exact hr t v htv

/-- The keep mask marks what is left of the picks. -/
theorem rdSpKeep_eq {pts : List Str} {ps qs : List Pick} (hp : List.Forall₂ Typed pts ps)
    (hq : List.Forall₂ Typed pts qs) (h : maskOf ps = maskOf qs) (acc : Str) :
    rdSpKeep (maskOf ps) (ofPicks ps).kvs (ofPicks qs).kvs acc = acc ++ maskOf (meet ps qs) := by
  induction hp generalizing qs acc with
  | nil => simp [maskOf, rdSpKeep, meet]
  | @cons t p ts ps hp1 _ ih =>
    cases hq with
    | @cons _ q _ qs hq1 hq2 =>
      have htail : maskOf ps = maskOf qs := (List.cons.inj h).2
      have hhead := (List.cons.inj h).1
      rcases p with _ | ⟨tp, vp⟩ <;> rcases q with _ | ⟨tq, vq⟩
      · have hstep : rdSpKeep (maskOf (none :: ps)) (ofPicks (none :: ps)).kvs
            (ofPicks (none :: qs)).kvs acc =
              rdSpKeep (maskOf ps) (ofPicks ps).kvs (ofPicks qs).kvs (acc ++ "D".toList) := by
          exact if_pos rfl
        rw [hstep, ih hq2 htail, List.append_assoc]
        rfl
      · exact absurd hhead (by simp)
      · exact absurd hhead (by simp)
      · have htp := (hp1 tp vp rfl).1
        have htq := (hq1 tq vq rfl).1
        have hstep : rdSpKeep (maskOf (some (tp, vp) :: ps)) (ofPicks (some (tp, vp) :: ps)).kvs
            (ofPicks (some (tq, vq) :: qs)).kvs acc =
              rdSpKeep (maskOf ps) (ofPicks ps).kvs (ofPicks qs).kvs
                (acc ++ (if vp = vq then "K" else "D").toList) := by
          exact if_neg (show ¬ 'K' = 'D' by decide)
        rw [hstep, ih hq2 htail, List.append_assoc, htp, htq]
        by_cases hv : vp = vq
        · simp [meet, keepPick, maskOf, hv]
        · simp [meet, keepPick, maskOf, hv]

/-- Under a keep mask, the picks are those it marks. -/
theorem picks_keep {keep : Str} (hne : keep ≠ []) {pts : List Str} {as : List GxArg} {i : Nat}
    {ms : List Pick} (h : keep.drop i = maskOf ms) (hm : ms.length = pts.length) :
    picks keep pts as i =
      List.zipWith (fun p m => if m.isSome then p else none) (picks [] pts as i) ms := by
  induction pts generalizing as i ms with
  | nil => simp [picks]
  | cons pt pts ih =>
    rcases as with _ | ⟨a, as⟩
    · simp [picks]
    rcases ms with _ | ⟨m, ms⟩
    · exact absurd hm (by simp)
    · have hnext : keep.drop (i + 1) = maskOf ms := drop_succ_of_drop h
      have hk : strSlice keep i (i + 1) = [if m.isSome then 'K' else 'D'] := by
        rw [strSlice, h]
        simp [maskOf]
      rw [picks, picks, List.zipWith_cons_cons, ih hnext (Nat.succ.inj hm)]
      congr 1
      cases m with
      | none => simp [pick, gxKnown, hne, hk]
      | some tv => simp [pick, gxKnown, hk]

theorem zipWith_meet (ps qs : List Pick) :
    List.zipWith (fun p m => if m.isSome then p else none) ps (meet ps qs) = meet ps qs := by
  induction ps generalizing qs with
  | nil => rfl
  | cons p ps ih =>
    cases qs with
    | nil => rfl
    | cons q qs =>
      have hhead : (if (keepPick p q).isSome then p else none) = keepPick p q := by
        unfold keepPick
        by_cases hpq : p = q
        · rw [if_pos hpq]
          cases p with
          | none => rfl
          | some tv => rfl
        · rw [if_neg hpq]
          rfl
      show _ :: _ = _ :: _
      exact congrArg₂ List.cons hhead (ih qs)

/-! ## One specialisation -/

/-- A function of integers and strings. -/
structure ScalarFn where
  name : Str
  pts : List Str
  name_plain : entrySep ∉ name
  scalar : ∀ pt ∈ pts, Scalar (rdNormTy pt)

variable {f : ScalarFn} {rb : RB} {hist : List Str} {st st' : GS}

/-- The pattern of a call before it is generalised. -/
def ScalarFn.pattern (f : ScalarFn) (as : List GxArg) : GXP :=
  gxSpPat [] f.pts as 0 GXP.empty

/-- An entry of one of the patterns `X` of `f`, or of another function. -/
def Recorded (f : ScalarFn) (X : List Pick → Prop) (e : Str) : Prop :=
  (∃ ps, X ps ∧ List.Forall₂ Typed f.pts ps ∧ e = histEntry f.name (ofPicks ps)) ∨
    ∃ g p, entrySep ∉ g ∧ g ≠ f.name ∧ e = histEntry g p

theorem answer_histEntry_other {g : Str} (hg : entrySep ∉ g) (hne : g ≠ f.name) (p q : GXP) :
    answer f.name p (histEntry g q) = none := by
  have hsplit : histEntry g q =
      g ++ entrySep :: (q.mask ++ [entrySep] ++ rdJoin q.kvs 0 [valueSep] []) := by
    simp [histEntry]
  rw [hsplit]
  exact answer_other hg hne p

variable {qs : List Pick} {X : List Pick → Prop} {p : GXP} {run : ℕ → GS}

/-- An entry that embeds makes the whistle answer, whatever else the history holds. -/
theorem rdWhistle_ne_nil {ps : List Pick} (hp : List.Forall₂ Typed f.pts ps)
    (hne : (ofPicks qs).nk ≠ 0) (hmem : histEntry f.name (ofPicks ps) ∈ hist)
    (hemb : Embeds (ofPicks ps) (ofPicks qs)) : rdWhistle hist f.name (ofPicks qs) ≠ [] := by
  have hans := (answer_histEntry f.name_plain hp hne).trans (if_pos hemb)
  have hsome : (hist.reverse.findSome? (answer f.name (ofPicks qs))).isSome = true := by
    rw [List.findSome?_isSome_iff]
    exact ⟨_, List.mem_reverse.2 hmem, by rw [hans]; rfl⟩
  obtain ⟨avs, havs⟩ := Option.isSome_iff_exists.1 hsome
  obtain ⟨e, -, he⟩ := List.exists_of_findSome?_eq_some havs
  rw [rdWhistle_eq, havs, Option.getD_some]
  intro hnil
  have hlen := length_answer he
  rw [hnil] at hlen
  exact hne hlen.symm

/-- What the whistle answers are the values of a recorded pattern of the same mask. -/
theorem rdWhistle_recorded (hX : ∀ e ∈ hist, Recorded f X e) (hne : (ofPicks qs).nk ≠ 0)
    (h : rdWhistle hist f.name (ofPicks qs) ≠ []) :
    ∃ ps, X ps ∧ List.Forall₂ Typed f.pts ps ∧ maskOf ps = maskOf qs ∧
      rdWhistle hist f.name (ofPicks qs) = (ofPicks ps).kvs := by
  rw [rdWhistle_eq] at h ⊢
  cases hfind : hist.reverse.findSome? (answer f.name (ofPicks qs)) with
  | none =>
    rw [hfind] at h
    exact absurd rfl h
  | some avs =>
    obtain ⟨e, hmem, he⟩ := List.exists_of_findSome?_eq_some hfind
    rcases hX e (List.mem_reverse.1 hmem) with ⟨ps, hps, htyped, rfl⟩ | ⟨g, p, hg, hgne, rfl⟩
    · rw [answer_histEntry f.name_plain htyped hne] at he
      split_ifs at he with hc
      cases he
      exact ⟨ps, hps, htyped, hc.1, rfl⟩
    · rw [answer_histEntry_other hg hgne] at he
      cases he

/-- The pattern of a specialisation: the whistle finds nothing for it, or it keeps picks of a
recorded one. -/
theorem gxPlan_cases (hX : ∀ e ∈ hist, Recorded f X e) {as : List GxArg}
    (h : gxPlan f.name f.pts as hist = some p) :
    ∃ qs, List.Forall₂ Typed f.pts qs ∧ p = ofPicks qs ∧ (ofPicks qs).nk ≠ 0 ∧
      (rdWhistle hist f.name (ofPicks qs) = [] ∨ ∃ ps, X ps ∧ Below qs ps) := by
  rw [gxPlan] at h
  by_cases hbad : f.pts.length ≠ as.length ∨ f.pts.length = 0
  · rw [if_pos hbad] at h
    cases h
  rw [if_neg hbad] at h
  obtain ⟨hlen, hpos⟩ := not_or.1 hbad
  have htyped := @typed_picks f.pts [] as f.scalar (not_not.1 hlen).symm 0
  simp only [gxSpPat_eq] at h
  generalize hqs : picks [] f.pts as 0 = qs at h htyped
  by_cases hnk : (ofPicks qs).nk = 0
  · rw [if_pos hnk] at h
    cases h
  rw [if_neg hnk] at h
  split_ifs at h with hanc hnk'
  · have hne : rdWhistle hist f.name (ofPicks qs) ≠ [] := List.length_pos_iff.1 hanc
    obtain ⟨ps, hps, hpst, hmask, hkvs⟩ := rdWhistle_recorded hX hnk hne
    have hpair : qs.length = ps.length := htyped.length_eq.symm.trans hpst.length_eq
    have hkeep := rdSpKeep_eq htyped hpst hmask.symm []
    rw [List.nil_append] at hkeep
    have hmeet : (meet qs ps).length = f.pts.length := (typed_meet htyped hpair).length_eq.symm
    have hkne : maskOf (meet qs ps) ≠ [] := by
      intro h0
      have hl := congrArg List.length h0
      rw [maskOf, List.length_map, hmeet] at hl
      exact hpos hl
    have hpicks := @picks_keep (maskOf (meet qs ps)) hkne f.pts as 0 (meet qs ps) rfl hmeet
    rw [hqs, zipWith_meet] at hpicks
    rw [hkvs, show (ofPicks qs).mask = maskOf qs from rfl, hkeep, hpicks] at h hnk'
    cases h
    exact ⟨_, typed_meet htyped hpair, rfl, hnk', Or.inr ⟨ps, hps, meet_below hpair⟩⟩
  · cases h
    exact ⟨qs, htyped, rfl, hnk, Or.inl (List.eq_nil_of_length_eq_zero (by omega))⟩

/-- Is a pattern's key in the memo? -/
def Memoised (name : Str) (st : GS) (p : GXP) : Prop :=
  (st.memo (spKey name p)).getD [] ≠ []

/-- A pattern is reduced when it was not met before; then its key is in the memo. -/
theorem gxSpecWith_some {name : Str} (h : gxSpecWith rb name p st = some st') :
    ¬ Memoised name st p ∧ st'.hist = st.hist ++ [histEntry name p] ∧ Memoised name st' p ∧
      ∀ q, Memoised name st q → Memoised name st' q := by
  rw [gxSpecWith] at h
  by_cases hit : (st.memo (spKey name p)).getD [] ≠ []
  · rw [if_pos hit] at h
    cases h
  rw [if_neg hit] at h
  by_cases hspecs : st.nspec ≥ rb.specs
  · rw [if_pos hspecs] at h
    cases h
  rw [if_neg hspecs] at h
  by_cases hcnt : strParseInt ((st.memo (cntKey name)).getD "0".toList) ≥ rb.specsFn
  · exact absurd (h.symm.trans (if_pos hcnt)) (Option.some_ne_none _)
  replace h := h.symm.trans (if_neg hcnt)
  cases h
  refine ⟨hit, rfl, ?_, ?_⟩
  · simp [Memoised, gxStMemo]
  · intro q hq
    unfold Memoised at hq ⊢
    simp only [gxStMemo]
    split_ifs
    · simp
    · exact intText_ne _
    · exact hq

/-! ## Chains -/

/-- `f` is specialised for a call with the arguments `as`. -/
def Specializes (rb : RB) (f : ScalarFn) (st st' : GS) : Prop :=
  ∃ as, gxSpecialize rb f.name f.pts as st = some st'

/-- What happens between two specialisations of `f` down a chain: other functions are
specialised, and patterns of `f` that were met stay so. -/
structure Between (f : ScalarFn) (st st' : GS) : Prop where
  hist : ∃ es, st'.hist = st.hist ++ es ∧
    ∀ e ∈ es, ∃ g p, entrySep ∉ g ∧ g ≠ f.name ∧ e = histEntry g p
  memo : ∀ p, Memoised f.name st p → Memoised f.name st' p

/-- One specialisation of `f` by the pattern of the picks `qs`. -/
structure Reduces (rb : RB) (f : ScalarFn) (st st' : GS) (qs : List Pick) : Prop where
  typed : List.Forall₂ Typed f.pts qs
  fresh : ¬ Memoised f.name st (ofPicks qs)
  hist : st'.hist = st.hist ++ [histEntry f.name (ofPicks qs)]
  memoised : Memoised f.name st' (ofPicks qs)
  memo : ∀ p, Memoised f.name st p → Memoised f.name st' p
  plan : ∀ X, (∀ e ∈ st.hist, Recorded f X e) → (ofPicks qs).nk ≠ 0 ∧
    (rdWhistle st.hist f.name (ofPicks qs) = [] ∨ ∃ ps, X ps ∧ Below qs ps)

theorem ofPicks_inj {pts : List Str} {ps : List Pick} (hp : List.Forall₂ Typed pts ps)
    (hq : List.Forall₂ Typed pts qs) (h : ofPicks ps = ofPicks qs) : ps = qs := by
  have hmask : maskOf ps = maskOf qs := congrArg GXP.mask h
  have hkvs : (ofPicks ps).kvs = (ofPicks qs).kvs := congrArg GXP.kvs h
  clear h
  induction hp generalizing qs with
  | nil =>
    cases hq
    rfl
  | @cons t p ts ps hp1 _ ih =>
    cases hq with
    | @cons _ q _ qs hq1 hq2 =>
      obtain ⟨hhead, htail⟩ := List.cons.inj hmask
      match p, q, hhead with
      | none, none, _ => rw [ih hq2 htail hkvs]
      | some (tp, vp), some (tq, vq), _ =>
        obtain ⟨hv, hrest⟩ := List.cons.inj hkvs
        rw [ih hq2 htail hrest, (hp1 tp vp rfl).1, (hq1 tq vq rfl).1]
        exact congrArg (fun v => some (rdNormTy t, v) :: qs) hv

theorem Specializes.reduces (h : Specializes rb f st st') (hX : ∀ e ∈ st.hist, Recorded f X e) :
    ∃ qs, Reduces rb f st st' qs := by
  obtain ⟨as, has⟩ := h
  obtain ⟨p, hplan, hwith⟩ := Option.bind_eq_some_iff.1 has
  obtain ⟨qs, htyped, rfl, -, -⟩ := gxPlan_cases hX hplan
  obtain ⟨hfresh, hhist, hmemoised, hmemo⟩ := gxSpecWith_some hwith
  refine ⟨qs, htyped, hfresh, hhist, hmemoised, hmemo, ?_⟩
  intro Y hY
  obtain ⟨rs, hrs, heq, hnk, hcase⟩ := gxPlan_cases hY hplan
  rw [ofPicks_inj htyped hrs heq]
  exact ⟨hnk, hcase⟩

theorem hist_mono (h : ∀ n, ∃ es, (run (n + 1)).hist = (run n).hist ++ es) {m n : ℕ} (hmn : m ≤ n)
    {e : Str} (he : e ∈ (run m).hist) : e ∈ (run n).hist := by
  induction hmn with
  | refl => exact he
  | @step n _ ih =>
    obtain ⟨es, hes⟩ := h n
    rw [hes]
    exact List.mem_append_left es ih

theorem memo_mono (h : ∀ n, Memoised f.name (run n) p → Memoised f.name (run (n + 1)) p) {m n : ℕ}
    (hmn : m ≤ n) (hm : Memoised f.name (run m) p) : Memoised f.name (run n) p := by
  induction hmn with
  | refl => exact hm
  | step _ ih => exact h _ ih

/-- What is recorded along a run whose every step enters a pattern `R` holds of, or entries of
other functions. -/
theorem recorded_run {R : ℕ → List Pick → Prop} (h0 : (run 0).hist = [])
    (hstep : ∀ n, (∀ e ∈ (run n).hist, Recorded f (fun ps => ∃ m < n, R m ps) e) →
      (∃ qs, R n qs ∧ List.Forall₂ Typed f.pts qs ∧
        (run (n + 1)).hist = (run n).hist ++ [histEntry f.name (ofPicks qs)]) ∨
      Between f (run n) (run (n + 1))) :
    ∀ n, ∀ e ∈ (run n).hist, Recorded f (fun ps => ∃ m < n, R m ps) e := by
  intro n
  induction n with
  | zero =>
    rw [h0]
    exact fun e he => absurd he List.not_mem_nil
  | succ n ih =>
    have hold : ∀ e ∈ (run n).hist, Recorded f (fun ps => ∃ m < n + 1, R m ps) e := by
      intro e he
      rcases ih e he with ⟨ps, ⟨m, hm, hps⟩, hrest⟩ | hother
      · exact Or.inl ⟨ps, ⟨m, Nat.lt_succ_of_lt hm, hps⟩, hrest⟩
      · exact Or.inr hother
    intro e he
    rcases hstep n ih with ⟨qs, hR, htyped, hhist⟩ | hbetween
    · rw [hhist, List.mem_append, List.mem_singleton] at he
      rcases he with he | rfl
      · exact hold e he
      · exact Or.inl ⟨qs, ⟨n, Nat.lt_succ_self n, hR⟩, htyped, rfl⟩
    · obtain ⟨es, hes, hother⟩ := hbetween.hist
      rw [hes, List.mem_append] at he
      rcases he with he | he
      · exact hold e he
      · exact Or.inr (hother e he)

/-- A chain specialises a function of integers and strings finitely often, whatever the limits. -/
theorem specialisations_finite (h0 : (run 0).hist = [])
    (hstep : ∀ n, Specializes rb f (run n) (run (n + 1)) ∨ Between f (run n) (run (n + 1))) :
    {n | Specializes rb f (run n) (run (n + 1))}.Finite := by
  have hany : ∀ n, ∀ e ∈ (run n).hist,
      Recorded f (fun ps => ∃ m < n, Reduces rb f (run m) (run (m + 1)) ps) e := by
    refine recorded_run h0 fun n ih => (hstep n).imp ?_ id
    intro hspec
    obtain ⟨qs, hqs⟩ := hspec.reduces ih
    exact ⟨qs, hqs, hqs.typed, hqs.hist⟩
  have hx : ∀ n, ∃ qs : { ps : List Pick // List.Forall₂ Typed f.pts ps },
      Specializes rb f (run n) (run (n + 1)) → Reduces rb f (run n) (run (n + 1)) qs.1 := by
    intro n
    by_cases hspec : Specializes rb f (run n) (run (n + 1))
    · obtain ⟨qs, hqs⟩ := hspec.reduces (hany n)
      exact ⟨⟨qs, hqs.typed⟩, fun _ => hqs⟩
    · have hnone : List.Forall₂ Typed f.pts (f.pts.map fun _ => none) := by
        rw [List.forall₂_map_right_iff, List.forall₂_same]
        intro pt _ t v htv
        cases htv
      exact ⟨⟨_, hnone⟩, fun h => absurd h hspec⟩
  choose x hx using hx
  have hrec : ∀ n, ∀ e ∈ (run n).hist,
      Recorded f (fun ps => ∃ m < n, Specializes rb f (run m) (run (m + 1)) ∧ ps = (x m).1) e := by
    refine recorded_run h0 fun n _ => (hstep n).imp ?_ id
    exact fun hspec => ⟨_, ⟨hspec, rfl⟩, (hx n hspec).typed, (hx n hspec).hist⟩
  have hhist : ∀ n, ∃ es, (run (n + 1)).hist = (run n).hist ++ es := by
    intro n
    rcases hstep n with hspec | hbetween
    · exact ⟨_, (hx n hspec).hist⟩
    · obtain ⟨es, hes, -⟩ := hbetween.hist
      exact ⟨es, hes⟩
  have hmemo : ∀ p n, Memoised f.name (run n) p → Memoised f.name (run (n + 1)) p := by
    intro p n
    rcases hstep n with hspec | hbetween
    · exact (hx n hspec).memo p
    · exact hbetween.memo p
  -- a pattern reduced again would be in the memo
  have hdiff : ∀ m n, Specializes rb f (run m) (run (m + 1)) →
      Specializes rb f (run n) (run (n + 1)) → m < n → x m ≠ x n := by
    intro m n hm hn hmn heq
    have hmet := memo_mono (hmemo _) (Nat.succ_le_of_lt hmn) (hx m hm).memoised
    rw [heq] at hmet
    exact (hx n hn).fresh hmet
  refine @finite_of_fresh_or_below _ _ (fun p q => Below p.1 q.1) (wqo_embeds f.scalar)
    (fun p => below_refl p.1) (fun _ _ _ => below_trans) ?_ _ x ?_ ?_
  · intro q
    exact (finite_below q.1).preimage Subtype.val_injective.injOn
  · intro m hm n hn heq
    rcases Nat.lt_trichotomy m n with hlt | rfl | hlt
    · exact absurd heq (hdiff m n hm hn hlt)
    · rfl
    · exact absurd heq.symm (hdiff n m hn hm hlt)
  · intro n hn
    obtain ⟨hnk, hquiet | ⟨ps, ⟨m, hmn, hm, rfl⟩, hbelow⟩⟩ := (hx n hn).plan _ (hrec n)
    · left
      intro m hm hmn hemb
      refine rdWhistle_ne_nil (x m).2 hnk ?_ hemb hquiet
      refine hist_mono hhist (Nat.succ_le_of_lt hmn) ?_
      rw [(hx m hm).hist]
      exact List.mem_append_right _ (List.mem_singleton_self _)
    · exact Or.inr ⟨m, hm, hmn, hbelow⟩

/-! ## The whistle -/

theorem pattern_eq (as : List GxArg) : f.pattern as = ofPicks (picks [] f.pts as 0) :=
  gxSpPat_eq [] f.pts as

theorem typed_pattern {as : List GxArg} (h : as.length = f.pts.length) :
    List.Forall₂ Typed f.pts (picks [] f.pts as 0) :=
  typed_picks f.scalar h 0

/-- Embedding is a well-quasi-order on the patterns of a function of integers and strings; the
whistle answers in every sequence of them, and a chain specialises the function finitely often. -/
theorem whistle_stops_chains (f : ScalarFn) :
    (∀ as, as.length = f.pts.length → Embeds (f.pattern as) (f.pattern as)) ∧
    (∀ as bs cs, as.length = f.pts.length → bs.length = f.pts.length →
      cs.length = f.pts.length → Embeds (f.pattern as) (f.pattern bs) →
      Embeds (f.pattern bs) (f.pattern cs) → Embeds (f.pattern as) (f.pattern cs)) ∧
    (∀ t : ℕ → List GxArg, (∀ n, (t n).length = f.pts.length) →
      ∃ m n, m < n ∧ Embeds (f.pattern (t m)) (f.pattern (t n))) ∧
    (∀ (t : ℕ → List GxArg) (hist : ℕ → List Str), (∀ n, (t n).length = f.pts.length) →
      (∀ n, (f.pattern (t n)).nk ≠ 0) →
      (∀ m n, m < n → histEntry f.name (f.pattern (t m)) ∈ hist n) →
      ∃ n, rdWhistle (hist n) f.name (f.pattern (t n)) ≠ []) ∧
    ∀ (rb : RB) (run : ℕ → GS), (run 0).hist = [] →
      (∀ n, Specializes rb f (run n) (run (n + 1)) ∨ Between f (run n) (run (n + 1))) →
      {n | Specializes rb f (run n) (run (n + 1))}.Finite := by
  have hwqo : ∀ t : ℕ → List GxArg, (∀ n, (t n).length = f.pts.length) →
      ∃ m n, m < n ∧ Embeds (f.pattern (t m)) (f.pattern (t n)) := by
    intro t ht
    obtain ⟨m, n, hmn, h⟩ := wqo_embeds f.scalar fun n => ⟨_, typed_pattern (ht n)⟩
    refine ⟨m, n, hmn, ?_⟩
    rw [pattern_eq, pattern_eq]
    exact h
  refine ⟨?_, ?_, hwqo, ?_, ?_⟩
  · intro as has
    have htyped := typed_pattern has
    rw [pattern_eq, embeds_iff htyped htyped]
    exact Pointwise.refl (fun pt o => refl_of (PickEmbeds pt) o) _ _ htyped.length_eq.symm
  · intro as bs cs has hbs hcs
    rw [pattern_eq, pattern_eq, pattern_eq, embeds_iff (typed_pattern has) (typed_pattern hbs),
      embeds_iff (typed_pattern hbs) (typed_pattern hcs),
      embeds_iff (typed_pattern has) (typed_pattern hcs)]
    exact Pointwise.trans (r := PickEmbeds) fun pt _ _ _ => trans_of (PickEmbeds pt)
  · intro t hist ht hnk hhist
    obtain ⟨m, n, hmn, hemb⟩ := hwqo t ht
    refine ⟨n, ?_⟩
    have hmem := hhist m n hmn
    have hne := hnk n
    rw [pattern_eq] at hmem hne ⊢
    rw [pattern_eq, pattern_eq] at hemb
    exact rdWhistle_ne_nil (typed_pattern (ht m)) hne hmem hemb
  · intro rb run h0 hstep
    exact specialisations_finite h0 hstep

/-- `Str pad(Int n, Str s)`. -/
def padFn : ScalarFn where
  name := "pad".toList
  pts := ["Int".toList, "Str".toList]
  name_plain := by decide
  scalar := by
    intro pt hpt
    rcases List.mem_cons.1 hpt with rfl | hpt
    · exact Or.inl (by decide)
    · rw [List.mem_singleton.1 hpt]
      exact Or.inr (by decide)

/-- The calls `pad(5, "a")` and `pad(-3, s)` in turn, `s` not known. -/
def padArgs (n : ℕ) : List GxArg :=
  if n % 2 = 0 then
    [⟨"Int".toList, "5".toList, fun _ => ⟨5, by decide⟩⟩,
      ⟨"Str".toList, "a".toList, fun h => absurd h (by decide)⟩]
  else
    [⟨"Int".toList, "-3".toList, fun _ => ⟨-3, by decide⟩⟩, ⟨[], [], fun h => absurd h (by decide)⟩]

def padStart : GS := ⟨[], fun _ => none, 0⟩

theorem pad_reduced :
    (gxSpecialize ⟨400, 8⟩ padFn.name padFn.pts (padArgs 0) padStart).isSome = true := by decide

def padRun : ℕ → GS
  | 0 => padStart
  | _ + 1 => (gxSpecialize ⟨400, 8⟩ padFn.name padFn.pts (padArgs 0) padStart).get pad_reduced

theorem whistle_stops_pad :
    (∃ n, rdWhistle ((List.range n).map fun m => histEntry padFn.name (padFn.pattern (padArgs m)))
      padFn.name (padFn.pattern (padArgs n)) ≠ []) ∧
    {n | Specializes ⟨400, 8⟩ padFn (padRun n) (padRun (n + 1))}.Finite := by
  obtain ⟨-, -, -, hwhistle, hfinite⟩ := whistle_stops_chains padFn
  have hlen : ∀ n, (padArgs n).length = padFn.pts.length := by
    intro n
    unfold padArgs
    split_ifs <;> rfl
  have hknown : ∀ n, (padFn.pattern (padArgs n)).nk ≠ 0 := by
    intro n
    unfold padArgs
    split_ifs <;> decide
  refine ⟨hwhistle padArgs _ hlen hknown ?_, hfinite _ padRun rfl ?_⟩
  · intro m n hmn
    exact List.mem_map.2 ⟨m, List.mem_range.2 hmn, rfl⟩
  · intro n
    cases n with
    | zero => exact Or.inl ⟨padArgs 0, (Option.some_get pad_reduced).symm⟩
    | succ n => exact Or.inr ⟨⟨[], (List.append_nil _).symm, by simp⟩, fun _ h => h⟩

end Reduce
