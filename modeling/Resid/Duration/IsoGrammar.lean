import Resid.Duration.IsoForm

/-!
# The grammar of the ISO form

    P[nD][T[nH][nM][nS]]    or    PnW

with an optional minus sign in front, at least one component in all and at least one
behind a `T`; a number is what the scanner takes for one and the letters stand in either
case.  The reader knows the halves of a text but not the order in them: it parses the
grammar exactly where a text whose designators stand in their halves has them in order.

    IsoBody r → r's tokens stand in their halves and in order          (tokens_of_isoBody)
    and back, if there are any                                         (isoBody_of_tokens)
    ReadsRight s ↔ ShortFits s ∧ IsoFits s ∧ OrderKept s               (readsRight_iff)
-/

namespace Duration

open CheckedInt Calendar Decimal Runtime

/-! ## The grammar -/

/-- A number and its designator, in upper or lower case. -/
def Component (upper lower : Char) (x : Str) : Prop :=
  ∃ (num : Number) (d : Char), (d = upper ∨ d = lower) ∧ x = num.text ++ [d]

/-- What may be left out. -/
def Opt (part : Str → Prop) (x : Str) : Prop := x = [] ∨ part x

/-- `T[nH][nM][nS]` with at least one component. -/
def TimePart (x : Str) : Prop :=
  ∃ (c : Char) (h m s : Str), (c = 'T' ∨ c = 't') ∧ Opt (Component 'H' 'h') h ∧
    Opt (Component 'M' 'm') m ∧ Opt (Component 'S' 's') s ∧ h ++ m ++ s ≠ [] ∧
    x = c :: (h ++ m ++ s)

/-- What stands behind the `P`: a week, or days and a time of which one may be left out. -/
inductive IsoBody : Str → Prop
  | week {x : Str} (hx : Component 'W' 'w' x) : IsoBody x
  | dayTime {d t : Str} (hd : Opt (Component 'D' 'd') d) (ht : Opt TimePart t)
      (hne : d ++ t ≠ []) : IsoBody (d ++ t)

/-- The texts of the grammar. -/
def IsoText (s : Str) : Prop :=
  ∃ (sign body : Str) (p : Char), (sign = [] ∨ sign = ['-']) ∧ (p = 'P' ∨ p = 'p') ∧
    IsoBody body ∧ s = sign ++ p :: body

/-! ## Places -/

/-- The place of a designator in the grammar; 2 is the place of the `T`, 6 that of nothing. -/
def letterPlace (d : Char) : Nat :=
  if d = 'W' ∨ d = 'w' then 0
  else if d = 'D' ∨ d = 'd' then 1
  else if d = 'H' ∨ d = 'h' then 3
  else if d = 'M' ∨ d = 'm' then 4
  else if d = 'S' ∨ d = 's' then 5
  else 6

def place : Token → Nat
  | .time _ => 2
  | .part _ d => letterPlace d
  | .bare _ => 6
  | .other => 6

/-- The places go up, a week stands alone and no `T` comes last. -/
structure InOrder (ts : List Token) : Prop where
  increasing : ts.Pairwise fun a b => place a < place b
  week : ∀ t ∈ ts, place t = 0 → ts.length = 1
  last : ∀ t, ts.getLast? = some t → place t ≠ 2

section Letters

variable (d : Char)

theorem letterPlace_code : letterPlace d =
    if (d.toNat : Int) = 87 ∨ (d.toNat : Int) = 119 then 0
    else if (d.toNat : Int) = 68 ∨ (d.toNat : Int) = 100 then 1
    else if (d.toNat : Int) = 72 ∨ (d.toNat : Int) = 104 then 3
    else if (d.toNat : Int) = 77 ∨ (d.toNat : Int) = 109 then 4
    else if (d.toNat : Int) = 83 ∨ (d.toNat : Int) = 115 then 5
    else 6 := by
  unfold letterPlace
  simp only [char_eq_iff]
  rfl

theorem dateUnit_iff : isoUnitSize d.toNat false ≠ 0 ↔ letterPlace d ≤ 1 := by
  rw [letterPlace_code, isoUnitSize, if_pos rfl]
  split_ifs <;> omega

theorem timeUnit_iff : isoUnitSize d.toNat true ≠ 0 ↔ 3 ≤ letterPlace d ∧ letterPlace d ≤ 5 := by
  rw [letterPlace_code, isoUnitSize, if_neg (by decide)]
  split_ifs <;> omega

theorem letterPlace_ne_two : letterPlace d ≠ 2 := by
  rw [letterPlace_code]
  split_ifs <;> omega

end Letters

/-- The letters of a place. -/
structure Letters (k : Nat) (upper lower : Char) : Prop where
  iff : ∀ d, letterPlace d = k ↔ d = upper ∨ d = lower
  upper_stops : upper.isDigit = false ∧ upper ≠ '.'
  lower_stops : lower.isDigit = false ∧ lower ≠ '.'

variable {k : Nat} {c lower upper : Char} {r x : Str} {ts : List Token} {t : Token}

/-- Letters given by their codes. -/
theorem Letters.of_codes
    (h : ∀ d : Char, letterPlace d = k ↔ (d.toNat : Int) = upper.toNat ∨
      (d.toNat : Int) = lower.toNat)
    (hupper : upper.isDigit = false ∧ upper ≠ '.') (hlower : lower.isDigit = false ∧ lower ≠ '.') :
    Letters k upper lower :=
  ⟨fun d => by rw [h, char_eq_iff, char_eq_iff], hupper, hlower⟩

theorem letters_week : Letters 0 'W' 'w' := by
  refine Letters.of_codes (fun d => ?_) (by decide) (by decide)
  rw [letterPlace_code]
  change _ ↔ (d.toNat : Int) = 87 ∨ (d.toNat : Int) = 119
  grind

theorem letters_day : Letters 1 'D' 'd' := by
  refine Letters.of_codes (fun d => ?_) (by decide) (by decide)
  rw [letterPlace_code]
  change _ ↔ (d.toNat : Int) = 68 ∨ (d.toNat : Int) = 100
  grind

theorem letters_hour : Letters 3 'H' 'h' := by
  refine Letters.of_codes (fun d => ?_) (by decide) (by decide)
  rw [letterPlace_code]
  change _ ↔ (d.toNat : Int) = 72 ∨ (d.toNat : Int) = 104
  grind

theorem letters_minute : Letters 4 'M' 'm' := by
  refine Letters.of_codes (fun d => ?_) (by decide) (by decide)
  rw [letterPlace_code]
  change _ ↔ (d.toNat : Int) = 77 ∨ (d.toNat : Int) = 109
  grind

theorem letters_second : Letters 5 'S' 's' := by
  refine Letters.of_codes (fun d => ?_) (by decide) (by decide)
  rw [letterPlace_code]
  change _ ↔ (d.toNat : Int) = 83 ∨ (d.toNat : Int) = 115
  grind

/-! ## Tokens and their places -/

/-- Reading goes through only where every character belongs to a token. -/
theorem flatMap_isoTokens {inTime : Bool} (h : inHalves inTime (isoTokens r) = true) :
    (isoTokens r).flatMap Token.text = r := by
  induction r using isoTokens.induct generalizing inTime with
  | case1 =>
    rw [isoTokens]
    rfl
  | case2 c r hc ih =>
    rw [isoTokens_time hc] at h ⊢
    rw [inHalves, Bool.and_eq_true] at h
    rw [List.flatMap_cons, ih h.2]
    rfl
  | case3 c r hc hnum =>
    rw [isoTokens_other (Bool.eq_false_iff.2 hc) hnum, inHalves] at h
    cases h
  | case4 c r hc num hnum hrest =>
    rw [isoTokens_number hnum, hrest] at h
    dsimp only at h
    rw [inHalves] at h
    cases h
  | case5 c r hc num hnum d rest hrest ih =>
    rw [isoTokens_number hnum, hrest] at h ⊢
    dsimp only at h ⊢
    rw [inHalves, Bool.and_eq_true] at h
    obtain ⟨tail, hsplit⟩ := numberOf_rest hnum
    rw [List.flatMap_cons, ih h.2, Token.text, List.append_assoc, List.singleton_append]
    rw [hsplit, List.drop_left] at hrest
    rw [hsplit, hrest]

/-- A component in front of anything is one token. -/
theorem isoTokens_component (hk : Letters k upper lower) (hx : Component upper lower x)
    (rest : Str) : ∃ t, place t = k ∧ isoTokens (x ++ rest) = t :: isoTokens rest := by
  obtain ⟨num, d, hd, rfl⟩ := hx
  have hstops : Stops (d :: rest) := by
    rcases hd with rfl | rfl
    · exact stops_cons hk.upper_stops.1 hk.upper_stops.2
    · exact stops_cons hk.lower_stops.1 hk.lower_stops.2
  have hnum := numberOf_text num hstops
  rw [List.append_assoc, List.singleton_append]
  refine ⟨.part num d, (hk.iff d).2 hd, ?_⟩
  have hdrop : (num.text ++ d :: rest).drop num.text.length = d :: rest := List.drop_left
  cases hcons : num.text ++ d :: rest with
  | nil => exact absurd hcons (List.append_ne_nil_of_right_ne_nil _ (List.cons_ne_nil d rest))
  | cons c t =>
    rw [hcons] at hnum hdrop
    rw [isoTokens_number hnum, hdrop]

/-- A component that may be left out is at most one token. -/
theorem isoTokens_opt (hk : Letters k upper lower) (hx : Opt (Component upper lower) x)
    (rest : Str) : ∃ ts, (ts = [] ∧ x = [] ∨ ∃ t, ts = [t] ∧ place t = k) ∧
      isoTokens (x ++ rest) = ts ++ isoTokens rest := by
  rcases hx with rfl | hx
  · exact ⟨[], Or.inl ⟨rfl, rfl⟩, rfl⟩
  · obtain ⟨t, ht, heq⟩ := isoTokens_component hk hx rest
    exact ⟨[t], Or.inr ⟨t, rfl, ht⟩, heq⟩

/-- Behind the `T` the halves are a matter of places alone. -/
theorem inHalves_true_iff : inHalves true ts = true ↔ ∀ t ∈ ts, 3 ≤ place t ∧ place t ≤ 5 := by
  induction ts with
  | nil => simp [inHalves]
  | cons t ts ih =>
    rw [List.forall_mem_cons, ← ih]
    cases t with
    | time c => simp [inHalves, place]
    | part num d =>
      rw [inHalves, Bool.and_eq_true, bne_iff_ne, timeUnit_iff]
      rfl
    | bare num => simp [inHalves, place]
    | other => simp [inHalves, place]

theorem hasPart_of_place (ht : t ∈ ts) (h2 : place t ≠ 2) (h6 : place t ≤ 5) :
    hasPart ts = true := by
  induction ts with
  | nil => cases ht
  | cons a ts ih =>
    cases a with
    | part num d => rfl
    | time c =>
      rcases List.mem_cons.1 ht with rfl | ht
      · exact absurd rfl h2
      · exact ih ht
    | bare num =>
      rcases List.mem_cons.1 ht with rfl | ht
      · exact absurd h6 (show ¬ 6 ≤ 5 by decide)
      · exact ih ht
    | other =>
      rcases List.mem_cons.1 ht with rfl | ht
      · exact absurd h6 (show ¬ 6 ≤ 5 by decide)
      · exact ih ht

/-- A token at the place of a letter is a component. -/
theorem Letters.component (hk : Letters k upper lower) (h2 : k ≠ 2) (h5 : k ≤ 5)
    (ht : place t = k) : Component upper lower t.text := by
  cases t with
  | part num d => exact ⟨num, d, (hk.iff d).1 ht, rfl⟩
  | time c => exact absurd ht.symm h2
  | bare num =>
    have h6 : 6 = k := ht
    omega
  | other =>
    have h6 : 6 = k := ht
    omega

/-- Of tokens in order those of the first place are split off. -/
theorem peel {n : Nat} (hk : Letters k upper lower) (h2 : k ≠ 2) (h5 : k ≤ 5)
    (hts : ∀ t ∈ ts, k ≤ place t ∧ place t ≤ n) (hinc : ts.Pairwise fun a b => place a < place b) :
    ∃ (x : Str) (ts' : List Token), ts.flatMap Token.text = x ++ ts'.flatMap Token.text ∧
      Opt (Component upper lower) x ∧ (∀ t ∈ ts', k + 1 ≤ place t ∧ place t ≤ n) ∧
      ts'.Pairwise fun a b => place a < place b := by
  cases ts with
  | nil => exact ⟨[], [], rfl, Or.inl rfl, fun _ h => absurd h List.not_mem_nil, hinc⟩
  | cons t ts =>
    obtain ⟨hlt, hinc'⟩ := List.pairwise_cons.1 hinc
    have hhead := hts t List.mem_cons_self
    by_cases heq : place t = k
    · refine ⟨t.text, ts, List.flatMap_cons, Or.inr (hk.component h2 h5 heq), ?_, hinc'⟩
      intro u hu
      have hu' := hlt u hu
      have hn := hts u (List.mem_cons_of_mem t hu)
      omega
    · refine ⟨[], t :: ts, rfl, Or.inl rfl, ?_, hinc⟩
      intro u hu
      have hn := hts u hu
      rcases List.mem_cons.1 hu with rfl | hu
      · omega
      · have hu' := hlt u hu
        omega

/-! ## The grammar on tokens -/

/-- The tokens behind a `T` of the grammar: components whose places go up from 3 to 5. -/
theorem isoTokens_timePart {h m : Str} (hh : Opt (Component 'H' 'h') h)
    (hm : Opt (Component 'M' 'm') m) (hx : Opt (Component 'S' 's') x) :
    (∀ t ∈ isoTokens (h ++ m ++ x), 3 ≤ place t ∧ place t ≤ 5) ∧
      (isoTokens (h ++ m ++ x)).Pairwise (fun a b => place a < place b) ∧
      (isoTokens (h ++ m ++ x) = [] → h ++ m ++ x = []) := by
  obtain ⟨hs, hcase, heq⟩ := isoTokens_opt letters_hour hh (m ++ x)
  obtain ⟨ms, mcase, meq⟩ := isoTokens_opt letters_minute hm x
  obtain ⟨xs, xcase, xeq⟩ := isoTokens_opt letters_second hx []
  have hnil : isoTokens [] = [] := by rw [isoTokens]
  rw [List.append_nil, hnil, List.append_nil] at xeq
  rw [List.append_assoc, heq, meq, xeq]
  rcases hcase with ⟨rfl, rfl⟩ | ⟨a, rfl, ha⟩ <;> rcases mcase with ⟨rfl, rfl⟩ | ⟨b, rfl, hb⟩ <;>
    rcases xcase with ⟨rfl, rfl⟩ | ⟨c, rfl, hc⟩ <;> simp [*]

/-- The tokens of a time, in front of nothing else. -/
theorem isoTokens_opt_time (hx : Opt TimePart x) :
    (x = [] ∧ isoTokens x = []) ∨ ∃ c ts, isoTokens x = .time c :: ts ∧ ts ≠ [] ∧
      (∀ t ∈ ts, 3 ≤ place t ∧ place t ≤ 5) ∧ ts.Pairwise fun a b => place a < place b := by
  rcases hx with rfl | ⟨c, h, m, s, hc, hh, hm, hs, hne, rfl⟩
  · exact Or.inl ⟨rfl, by rw [isoTokens]⟩
  · right
    obtain ⟨hplace, hinc, hnil⟩ := isoTokens_timePart hh hm hs
    have htime : isTime c = true := by
      rcases hc with rfl | rfl <;> rfl
    exact ⟨c, _, isoTokens_time htime, fun h => hne (hnil h), hplace, hinc⟩

/-- In front of the `T` the places up to 1 are those of the half. -/
theorem inHalves_date (ts : List Token) : inHalves false (t :: ts) = true ∧ place t ≠ 2 ↔
      place t ≤ 1 ∧ inHalves false ts = true := by
  cases t with
  | time c => simp [place]
  | part num d =>
    have hne := letterPlace_ne_two d
    rw [inHalves, Bool.and_eq_true, bne_iff_ne, dateUnit_iff]
    exact ⟨fun h => h.1, fun h => ⟨h, hne⟩⟩
  | bare num => simp [inHalves, place]
  | other => simp [inHalves, place]

/-- One component at the front and nothing else. -/
theorem single_inOrder (h : place t ≤ 1) :
    inHalves false [t] = true ∧ hasPart [t] = true ∧ InOrder [t] := by
  refine ⟨((inHalves_date []).2 ⟨h, rfl⟩).1,
    hasPart_of_place List.mem_cons_self (by omega) (by omega), List.pairwise_singleton _ t, ?_, ?_⟩
  · intro _ _ _
    rfl
  · intro u hu
    rw [List.getLast?_singleton, Option.some_inj] at hu
    subst hu
    omega

/-- A `T` with components behind it, and perhaps days in front. -/
theorem time_inOrder {ds : List Token} (hds : ds = [] ∨ ∃ t, ds = [t] ∧ place t = 1)
    (hne : ts ≠ []) (hplace : ∀ t ∈ ts, 3 ≤ place t ∧ place t ≤ 5)
    (hinc : ts.Pairwise fun a b => place a < place b) :
    inHalves false (ds ++ .time c :: ts) = true ∧ hasPart (ds ++ .time c :: ts) = true ∧
      InOrder (ds ++ .time c :: ts) := by
  have hhalf : inHalves false (.time c :: ts) = true := by
    rw [inHalves, inHalves_true_iff.2 hplace]
    rfl
  have hday : ∀ t ∈ ds, place t = 1 := by
    rcases hds with rfl | ⟨t, rfl, ht⟩
    · exact fun _ h => absurd h List.not_mem_nil
    · intro u hu
      rw [List.mem_singleton.1 hu]
      exact ht
  have hbehind : ∀ t ∈ Token.time c :: ts, 2 ≤ place t := by
    intro t ht
    rcases List.mem_cons.1 ht with rfl | ht
    · exact Nat.le_refl 2
    · have h := hplace t ht
      omega
  obtain ⟨u, hu⟩ := List.exists_mem_of_ne_nil ts hne
  have hplaceu := hplace u hu
  refine ⟨?_, ?_, ?_, ?_, ?_⟩
  · rcases hds with rfl | ⟨t, rfl, ht⟩
    · exact hhalf
    · exact ((inHalves_date _).2 ⟨by omega, hhalf⟩).1
  · refine hasPart_of_place (List.mem_append_right ds (List.mem_cons_of_mem _ hu)) ?_ ?_
    · omega
    · omega
  · rw [List.pairwise_append, List.pairwise_cons]
    refine ⟨?_, ⟨?_, hinc⟩, ?_⟩
    · rcases hds with rfl | ⟨t, rfl, -⟩
      · exact List.Pairwise.nil
      · exact List.pairwise_singleton _ t
    · intro t ht
      have h := hplace t ht
      show 2 < place t
      omega
    · intro a ha b hb
      have h1 := hday a ha
      have h2 := hbehind b hb
      omega
  · intro t ht h0
    rcases List.mem_append.1 ht with ht | ht
    · have h := hday t ht
      omega
    · have h := hbehind t ht
      omega
  · intro t ht
    have hlast : (ds ++ .time c :: ts).getLast? = ts.getLast? := by
      rw [List.getLast?_append_of_ne_nil _ (List.cons_ne_nil _ ts),
        List.getLast?_cons_of_ne_nil hne]
    rw [hlast] at ht
    have h := hplace t (List.mem_of_getLast? ht)
    omega

/-- What the grammar produces stands in its halves and in order. -/
theorem tokens_of_isoBody (h : IsoBody r) :
    inHalves false (isoTokens r) = true ∧ hasPart (isoTokens r) = true ∧
      InOrder (isoTokens r) := by
  have hnil : isoTokens [] = [] := by rw [isoTokens]
  cases h with
  | week hx =>
    obtain ⟨t, ht, heq⟩ := isoTokens_component letters_week hx []
    rw [List.append_nil, hnil] at heq
    rw [heq]
    exact single_inOrder (by omega)
  | @dayTime d x hd hx hne =>
    obtain ⟨ds, hcase, heq⟩ := isoTokens_opt letters_day hd x
    rw [heq]
    rcases isoTokens_opt_time hx with ⟨rfl, hx'⟩ | ⟨c, ts, hx', hts, hplace, hinc⟩
    · rw [hx', List.append_nil]
      rcases hcase with ⟨-, rfl⟩ | ⟨t, rfl, ht⟩
      · exact absurd rfl hne
      · exact single_inOrder (by omega)
    · rw [hx']
      exact time_inOrder (hcase.imp And.left id) hts hplace hinc

theorem Token.text_ne_nil (h : place t ≤ 5) : t.text ≠ [] := by
  cases t with
  | time c => exact List.cons_ne_nil c []
  | part num d => exact List.append_ne_nil_of_right_ne_nil _ (List.cons_ne_nil d [])
  | bare num => exact absurd h (show ¬ 6 ≤ 5 by decide)
  | other => exact absurd h (show ¬ 6 ≤ 5 by decide)

/-- Tokens behind a `T` that go up in place spell a time. -/
theorem timePart_of_tokens (hc : c = 'T' ∨ c = 't') (hne : ts ≠ [])
    (hplace : ∀ t ∈ ts, 3 ≤ place t ∧ place t ≤ 5)
    (hinc : ts.Pairwise fun a b => place a < place b) : TimePart (c :: ts.flatMap Token.text) := by
  obtain ⟨h, ts1, heq1, hh, hp1, hi1⟩ := peel letters_hour (by decide) (by decide) hplace hinc
  obtain ⟨m, ts2, heq2, hm, hp2, hi2⟩ := peel letters_minute (by decide) (by decide) hp1 hi1
  obtain ⟨x, ts3, heq3, hx, hp3, -⟩ := peel letters_second (by decide) (by decide) hp2 hi2
  have hend : ts3 = [] := by
    rw [List.eq_nil_iff_forall_not_mem]
    intro t ht
    have h := hp3 t ht
    omega
  have hall : ts.flatMap Token.text = h ++ m ++ x := by
    rw [heq1, heq2, heq3, hend, List.flatMap_nil, List.append_nil, List.append_assoc]
  refine ⟨c, h, m, x, hc, hh, hm, hx, ?_, by rw [hall]⟩
  rw [← hall]
  intro hnil
  obtain ⟨u, hu⟩ := List.exists_mem_of_ne_nil ts hne
  exact Token.text_ne_nil (hplace u hu).2 (List.flatMap_eq_nil_iff.1 hnil u hu)

theorem isoTokens_letter (h : .time c ∈ isoTokens r) : c = 'T' ∨ c = 't' := by
  induction r using isoTokens.induct with
  | case1 =>
    rw [isoTokens] at h
    cases h
  | case2 a r ha ih =>
    rw [isoTokens_time ha, List.mem_cons] at h
    rcases h with heq | h
    · cases heq
      simpa [isTime] using ha
    · exact ih h
  | case3 a r ha hnum =>
    rw [isoTokens_other (Bool.eq_false_iff.2 ha) hnum] at h
    simp at h
  | case4 a r ha num hnum hrest =>
    rw [isoTokens_number hnum, hrest] at h
    simp at h
  | case5 a r ha num hnum d rest hrest ih =>
    rw [isoTokens_number hnum, hrest] at h
    exact ih (by simpa using h)

theorem time_of_place (h : place t = 2) : ∃ c, t = .time c := by
  cases t with
  | time c => exact ⟨c, rfl⟩
  | part num d => exact absurd h (letterPlace_ne_two d)
  | bare num => cases h
  | other => cases h

/-- A `T` in its place, the components behind it in order. -/
theorem timePart_of_inOrder (ds : List Token) (hc : c = 'T' ∨ c = 't')
    (hh : inHalves false (.time c :: ts) = true) (ho : InOrder (ds ++ .time c :: ts)) :
    TimePart (c :: ts.flatMap Token.text) := by
  rw [inHalves, Bool.and_eq_true] at hh
  refine timePart_of_tokens hc ?_ (inHalves_true_iff.1 hh.2) ?_
  · intro hnil
    subst hnil
    exact ho.last (.time c) List.getLast?_concat rfl
  · exact (List.pairwise_cons.1 (List.pairwise_append.1 ho.increasing).2.1).2

/-- Tokens that stand in their halves and in order spell a text of the grammar. -/
theorem isoBody_of_tokens (hh : inHalves false (isoTokens r) = true)
    (hp : hasPart (isoTokens r) = true) (ho : InOrder (isoTokens r)) : IsoBody r := by
  have htext := flatMap_isoTokens hh
  have hletter : ∀ c, .time c ∈ isoTokens r → c = 'T' ∨ c = 't' := fun c => isoTokens_letter
  generalize isoTokens r = ts at *
  subst htext
  cases ts with
  | nil => cases hp
  | cons t ts =>
    by_cases h2 : place t = 2
    · obtain ⟨c, rfl⟩ := time_of_place h2
      have htime := timePart_of_inOrder [] (hletter c List.mem_cons_self) hh ho
      exact IsoBody.dayTime (d := []) (Or.inl rfl) (Or.inr htime) (List.cons_ne_nil c _)
    · obtain ⟨h1, hh'⟩ := (inHalves_date ts).1 ⟨hh, h2⟩
      by_cases h0 : place t = 0
      · -- a week, and nothing else
        have hone := ho.week t List.mem_cons_self h0
        have hnil : ts = [] := List.length_eq_zero_iff.1 (by rw [List.length_cons] at hone; omega)
        subst hnil
        have hweek := letters_week.component (by decide) (by decide) h0
        rw [List.flatMap_cons, List.flatMap_nil, List.append_nil]
        exact IsoBody.week hweek
      · -- days, and behind them only a time
        have hday : Component 'D' 'd' t.text :=
          letters_day.component (by decide) (by decide) (by omega)
        have hne := Token.text_ne_nil (t := t) (by omega)
        rw [List.flatMap_cons]
        refine IsoBody.dayTime (Or.inr hday) ?_ (List.append_ne_nil_of_left_ne_nil hne _)
        cases ts with
        | nil => exact Or.inl rfl
        | cons u us =>
          have hup := (List.pairwise_cons.1 ho.increasing).1 u List.mem_cons_self
          by_cases hu : place u = 2
          · obtain ⟨c, rfl⟩ := time_of_place hu
            have hc := hletter c (List.mem_cons_of_mem t List.mem_cons_self)
            exact Or.inr (timePart_of_inOrder [t] hc hh' ho)
          · have hu1 := ((inHalves_date us).1 ⟨hh', hu⟩).1
            omega

/-- The sign and the `P` of the grammar are those the reader takes off. -/
theorem isoText_iff (s : Str) : IsoText s ↔ ∃ body, isoBody s = some body ∧ IsoBody body := by
  constructor
  · rintro ⟨sign, body, p, hsign, hp, hbody, rfl⟩
    refine ⟨body, ?_, hbody⟩
    have hlen : (sign ++ p :: body).drop (signLen (sign ++ p :: body)) = p :: body := by
      rcases hsign with rfl | rfl
      · have hne : ¬ (p :: body).head? = some '-' := by
          rcases hp with rfl | rfl <;> simp
        rw [List.nil_append, signLen, if_neg hne, List.drop_zero]
      · rfl
    unfold isoBody
    rw [hlen]
    exact if_pos hp
  · rintro ⟨body, hs, hbody⟩
    obtain ⟨p, hp, hdrop⟩ := isoBody_some hs
    unfold signLen at hdrop
    by_cases hsign : s.head? = some '-'
    · obtain ⟨r, rfl⟩ : ∃ r, s = '-' :: r := by
        cases s with
        | nil => cases hsign
        | cons c r =>
          rw [List.head?_cons, Option.some_inj] at hsign
          exact ⟨r, by rw [hsign]⟩
      rw [if_pos hsign] at hdrop
      exact ⟨['-'], body, p, Or.inr rfl, hp, hbody, congrArg ('-' :: ·) hdrop⟩
    · rw [if_neg hsign, List.drop_zero] at hdrop
      exact ⟨[], body, p, Or.inl rfl, hp, hbody, hdrop⟩

/-! ## Reading is total and exact -/

/-- Every reader returns, and the ISO reader parses exactly the texts of the grammar. -/
structure ReadsRight (s : Str) : Prop where
  parse : (spanParse s).isSome = true
  short : (spanParseShort s).isSome = true
  iso : (spanParseIso8601 s).isSome = true
  accepts : (∃ t, spanParseIso8601 s = some (.parsed t)) ↔ IsoText s

/-- Components that each stand in their half, with at least one of them, stand in order:
none is repeated, a week is alone and the `T` has something behind it. -/
def OrderKept (s : Str) : Prop :=
  ∀ body, isoBody s = some body → inHalves false (isoTokens body) = true →
    hasPart (isoTokens body) = true → InOrder (isoTokens body)

theorem spanParse_isSome {s : Str} (hshort : (spanParseShort s).isSome = true)
    (hiso : (spanParseIso8601 s).isSome = true) : (spanParse s).isSome = true := by
  unfold spanParse
  dsimp only
  split
  · rfl
  · split
    · split
      · exact hiso
      · exact hshort
    · split
      · exact hiso
      · exact hshort

theorem readsRight_iff (s : Str) :
    ReadsRight s ↔ ShortFits s ∧ IsoFits s ∧ OrderKept s := by
  rw [← spanParseShort_isSome, ← spanParseIso8601_isSome]
  constructor
  · intro h
    refine ⟨h.short, h.iso, ?_⟩
    intro body hbody hhalf hpart
    have hfits := (spanParseIso8601_isSome s).1 h.iso
    have hparsed := (spanParseIso8601_parsed hfits).2 ⟨body, hbody, hhalf, hpart⟩
    obtain ⟨body', hbody', hgrammar⟩ := (isoText_iff s).1 (h.accepts.1 hparsed)
    rw [hbody, Option.some_inj] at hbody'
    subst hbody'
    exact (tokens_of_isoBody hgrammar).2.2
  · rintro ⟨hshort, hiso, horder⟩
    have hfits := (spanParseIso8601_isSome s).1 hiso
    refine ⟨spanParse_isSome hshort hiso, hshort, hiso, ?_⟩
    rw [spanParseIso8601_parsed hfits, isoText_iff]
    constructor
    · rintro ⟨body, hbody, hhalf, hpart⟩
      exact ⟨body, hbody, isoBody_of_tokens hhalf hpart (horder body hbody hhalf hpart)⟩
    · rintro ⟨body, hbody, hgrammar⟩
      obtain ⟨hhalf, hpart, -⟩ := tokens_of_isoBody hgrammar
      exact ⟨body, hbody, hhalf, hpart⟩

/-- Twenty digits of days end in an overflow; seconds before hours are read as a span. -/
theorem readsRight_fails :
    ¬ ReadsRight "P99999999999999999999D".toList ∧ ¬ ReadsRight "PT1S1H".toList := by
  constructor
  · intro h
    have hnone : spanParseIso8601 "P99999999999999999999D".toList = none := by decide +kernel
    have hsome := h.iso
    rw [hnone] at hsome
    cases hsome
  · intro h
    have hparsed : spanParseIso8601 "PT1S1H".toList = some (.parsed ⟨3601, 0⟩) := by
      decide +kernel
    have hplaces : (isoTokens "T1S1H".toList).map place = [2, 5, 3] := by decide +kernel
    obtain ⟨body, hbody, hgrammar⟩ := (isoText_iff _).1 (h.accepts.1 ⟨_, hparsed⟩)
    have hcut : isoBody "PT1S1H".toList = some "T1S1H".toList := by decide
    rw [hcut, Option.some_inj] at hbody
    subst hbody
    have hinc := List.pairwise_map.2 (tokens_of_isoBody hgrammar).2.2.increasing
    rw [hplaces] at hinc
    revert hinc
    decide

end Duration
