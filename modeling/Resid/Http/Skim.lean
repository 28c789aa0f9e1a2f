import Resid.Http.FrameRuns

/-!
# The framer and the reader on the same bytes

The framer's windows hold a line of the reader's limit and its CRLF: a line it finds is one
the reader takes, and a window without one is a line past the reader's limit.

    requestOf lim b = some (whole r left), r.ok → skimOf lim b            (skimOf_of_whole)
    skimOf lim b, 0 ≤ body_max → requestOf lim b = some (whole r left)    (whole_of_skimOf)

The framer may be late for a request the reader refuses: it looks neither at the bytes of a
line nor behind a chunk.
-/

namespace Http

open Runtime Scan

variable {b left : List Int} {i k start : Nat} {r : HttpRequest} {lim : HttpLimits}

theorem hsFind_drop {pat : List Int} (hpat : pat ≠ []) :
    hsFind b pat (i + start) = (hsFind (b.drop i) pat start).map (i + ·) := by
  cases hf : hsFind (b.drop i) pat start with
  | none => exact (find_drop_none hpat).1 hf
  | some j => exact (find_drop_some hpat).1 hf

theorem hsAscii_drop {e : Nat} : hsAscii b (i + start) (i + e) = hsAscii (b.drop i) start e := by
  rw [hsAscii, hsAscii, List.take_drop, List.drop_drop]

/-- The line the reader finds is the one in the framer's window. -/
theorem hsCrlf_of_at {max e : Nat} (h : lineOf (b.drop i) start max = .at e) :
    hsCrlf b (i + start) (i + start + (max + 2)) = some (i + e) := by
  obtain ⟨hf, -, hmax, -⟩ := lineOf_at h
  rw [hsCrlf_some, hsFind_drop crlf_ne_nil, hf]
  exact ⟨rfl, by omega⟩

theorem lineOf_of_hsCrlf {j : Nat} (start max : Nat)
    (h : hsCrlf b (i + start) (i + start + (max + 2)) = some j) :
    ∃ e, j = i + e ∧ lineOf (b.drop i) start max = .at e := by
  rw [hsCrlf_some, hsFind_drop crlf_ne_nil] at h
  obtain ⟨hf, hmax⟩ := h
  obtain ⟨e, he, rfl⟩ := Option.map_eq_some_iff.1 hf
  refine ⟨e, rfl, ?_⟩
  rw [lineOf, he]
  simp only
  rw [if_neg (by omega)]

/-- A full window without a CRLF is a line past the limit. -/
theorem lineOf_of_full (start max : Nat) (h : hsCrlf b (i + start) (i + start + (max + 2)) = none)
    (hfull : b.length ≥ i + start + (max + 2)) : lineOf (b.drop i) start max = .past := by
  rw [lineOf]
  cases hf : hsFind (b.drop i) [13, 10] start with
  | some e =>
    simp only
    rw [if_pos]
    by_contra hmax
    have hsome : hsCrlf b (i + start) (i + start + (max + 2)) = some (i + e) := by
      rw [hsCrlf_some, hsFind_drop crlf_ne_nil, hf]
      exact ⟨rfl, by omega⟩
    rw [h] at hsome
    cases hsome
  | none =>
    rw [List.length_drop, if_neg (by omega), if_neg (by omega)]

theorem hsReject_ok (status : Int) : (hsReject status).ok = false := rfl

theorem skimTrailers_of_whole {r' : HttpRequest} (h : trailersOf r k (b.drop i) = .whole r' left)
    (hok : r'.ok = true) : skimTrailers b k i = true := by
  induction k using Nat.strongRecOn generalizing i with
  | ind k ih =>
    obtain ⟨-, rfl, -⟩ | ⟨e, hl⟩ := trailersOf_whole h
    · cases hok
    have hc := hsCrlf_of_at hl
    rw [Nat.add_zero] at hc
    rw [skimTrailers_some hc]
    split_ifs with hend
    · rfl
    rw [trailersOf_step hl, if_pos (by omega : e > 0), if_neg (by omega : ¬ k = 0)] at h
    split_ifs at h
    · cases h
      cases hok
    · rw [List.drop_drop, ← Nat.add_assoc] at h
      exact ih (k - 1) (by omega) h

theorem skimChunks_of_whole {r' : HttpRequest} {acc : List Int} {total : Int} (i start : Nat)
    (h : chunkedOf lim r (b.drop i) k start acc total = .whole r' left) (hok : r'.ok = true) :
    skimChunks lim b k (i + start) total = true := by
  induction k using Nat.strongRecOn generalizing start acc total with
  | ind k ih =>
    obtain ⟨-, rfl, -⟩ | ⟨e, hl⟩ := chunkedOf_whole h
    · cases hok
    generalize hsize : chunkSize (hsAscii (b.drop i) start e) = size
    rw [skimChunks_some (hsCrlf_of_at hl) ((congrArg chunkSize hsAscii_drop).trans hsize)]
    rw [chunkedOf_step hl hsize] at h
    by_cases hbad : size < 0 ∨ total + size > lim.bodyMax
    · rw [if_pos hbad]
    obtain ⟨hneg, hbig⟩ := not_or.1 hbad
    rw [if_neg hbad]
    rw [if_neg hneg, if_neg hbig] at h
    rw [List.length_drop] at h
    split_ifs at h ⊢
    all_goals first
      | rfl
      | (cases h; cases hok)
      | skip
    · rw [List.drop_drop, ← Nat.add_assoc] at h
      exact skimTrailers_of_whole h hok
    · have hnext := ih (k - 1) (by omega) _ h
      simp only [← Nat.add_assoc] at hnext
      exact hnext
    · omega

theorem bodyOf_chunked (b : List Int) (h : hsBodyKind r = -2) :
    bodyOf lim r b = chunkedOf lim r b hsChunksMax 0 [] 0 := by
  rw [bodyOf, if_neg (by omega), if_neg (by omega), if_neg (by omega), if_neg (by omega),
    if_pos h]

theorem bodyOf_counted (b : List Int) (hneg : ¬ hsBodyKind r < 0)
    (hbig : ¬ hsBodyKind r > lim.bodyMax) : bodyOf lim r b =
      if (b.length : Int) < hsBodyKind r then .short false b
      else .whole (r.withBody (b.take (hsBodyKind r).toNat)) (b.drop (hsBodyKind r).toNat) := by
  rw [bodyOf, if_neg (by omega), if_neg (by omega), if_neg (by omega), if_neg (by omega),
    if_neg (by omega), if_neg hbig]

/-- A request with no body to read is whole at its head. -/
theorem bodyOf_refused (r : HttpRequest) (b : List Int) (hkind : hsBodyKind r ≠ -2)
    (hout : hsBodyKind r < 0 ∨ hsBodyKind r > lim.bodyMax) :
    ∃ r' left, bodyOf lim r b = .whole r' left := by
  rw [bodyOf]
  split_ifs
  all_goals first
    | exact ⟨_, _, rfl⟩
    | omega

theorem skimOf_of_whole (h : requestOf lim b = some (.whole r left)) (hok : r.ok = true) :
    skimOf lim b = true := by
  rw [requestOf] at h
  rw [skimOf]
  cases hf : hsFind b [13, 10, 13, 10] 0 with
  | none =>
    rw [hf] at h
    split_ifs at h
    cases h
    cases hok
  | some e =>
    rw [hf] at h
    simp only at h ⊢
    by_cases hmax : (e : Int) + 4 > lim.headMax
    · rw [if_pos hmax]
    by_cases hparse : (!(hsParseHead b e).ok) = true
    · rw [if_neg hmax, if_pos hparse]
    rw [if_neg hmax, if_neg hparse] at h ⊢
    have hbody := Option.some.inj h
    by_cases hkind : hsBodyKind (hsParseHead b e) = -2
    · rw [bodyOf_chunked _ hkind] at hbody
      rw [if_pos hkind]
      exact skimChunks_of_whole (e + 4) 0 hbody hok
    by_cases hout : hsBodyKind (hsParseHead b e) < 0 ∨
        hsBodyKind (hsParseHead b e) > lim.bodyMax
    · rw [if_neg hkind, if_pos hout]
    rw [if_neg hkind, if_neg hout]
    have hneg : ¬ hsBodyKind (hsParseHead b e) < 0 := fun h' => hout (.inl h')
    have hbig : ¬ hsBodyKind (hsParseHead b e) > lim.bodyMax := fun h' => hout (.inr h')
    rw [bodyOf_counted _ hneg hbig] at hbody
    have hle := (find_le head_ne_nil hf).2
    simp only [List.length_cons, List.length_nil] at hle
    split_ifs at hbody with hshort
    rw [List.length_drop] at hshort
    exact decide_eq_true (by omega)

/-! ## The other way -/

theorem whole_of_skimTrailers (h : skimTrailers b k i = true) :
    ∃ r' left, trailersOf r k (b.drop i) = .whole r' left := by
  induction k using Nat.strongRecOn generalizing i with
  | ind k ih =>
    cases hc : hsCrlf b i (i + 8194) with
    | none =>
      rw [skimTrailers_none hc] at h
      have hfull := of_decide_eq_true h
      rw [trailersOf, lineOf_of_full 0 8192 hc (by omega)]
      exact ⟨_, _, rfl⟩
    | some j =>
      obtain ⟨e, rfl, he⟩ := lineOf_of_hsCrlf 0 8192 hc
      rw [skimTrailers_some hc] at h
      rw [trailersOf_step he]
      split_ifs with hctl hpos hk
      · exact ⟨_, _, rfl⟩
      · exact ⟨_, _, rfl⟩
      · rw [if_neg (by omega)] at h
        rw [List.drop_drop, ← Nat.add_assoc]
        exact ih (k - 1) (by omega) h
      · exact ⟨_, _, rfl⟩

theorem whole_of_skimChunks (r : HttpRequest) (acc : List Int) {total : Int} (i start : Nat)
    (hbody : total ≤ lim.bodyMax) (h : skimChunks lim b k (i + start) total = true) :
    ∃ r' left, chunkedOf lim r (b.drop i) k start acc total = .whole r' left := by
  induction k using Nat.strongRecOn generalizing start acc total with
  | ind k ih =>
    cases hc : hsCrlf b (i + start) (i + start + 1026) with
    | none =>
      rw [skimChunks_none hc] at h
      have hfull := of_decide_eq_true h
      rw [chunkedOf, lineOf_of_full start 1024 hc (by omega)]
      exact ⟨_, _, rfl⟩
    | some j =>
      obtain ⟨e, rfl, he⟩ := lineOf_of_hsCrlf start 1024 hc
      generalize hsize : chunkSize (hsAscii (b.drop i) start e) = size
      rw [skimChunks_some hc ((congrArg chunkSize hsAscii_drop).trans hsize)] at h
      rw [chunkedOf_step he hsize]
      split_ifs with hctl hneg hzero hbig hk hshort hcrlf
      all_goals first
        | exact ⟨_, _, rfl⟩
        | skip
      · rw [if_neg (by omega), if_pos hzero] at h
        rw [List.drop_drop, ← Nat.add_assoc]
        exact whole_of_skimTrailers h
      all_goals
        rw [if_neg (by omega), if_neg hzero, if_neg hk] at h
        split_ifs at h with hin
      · rw [List.length_drop] at hshort
        omega
      · apply ih (k - 1) (by omega) _ _ (by omega)
        simp only [← Nat.add_assoc]
        exact h

/-- With a body limit that is not negative the reader is never starved. -/
theorem whole_of_skimOf (hbody : 0 ≤ lim.bodyMax) (h : skimOf lim b = true) :
    ∃ r left, requestOf lim b = some (.whole r left) := by
  rw [skimOf] at h
  rw [requestOf]
  cases hf : hsFind b [13, 10, 13, 10] 0 with
  | none =>
    rw [hf] at h
    have hmax := of_decide_eq_true h
    rw [if_pos hmax]
    exact ⟨_, _, rfl⟩
  | some e =>
    rw [hf] at h
    simp only at h ⊢
    by_cases hmax : (e : Int) + 4 > lim.headMax
    · rw [if_pos hmax]
      exact ⟨_, _, rfl⟩
    by_cases hparse : (!(hsParseHead b e).ok) = true
    · rw [if_neg hmax, if_pos hparse]
      exact ⟨_, _, rfl⟩
    rw [if_neg hmax, if_neg hparse] at h ⊢
    by_cases hkind : hsBodyKind (hsParseHead b e) = -2
    · rw [if_pos hkind] at h
      rw [bodyOf_chunked _ hkind]
      obtain ⟨r', left, hr⟩ := whole_of_skimChunks (hsParseHead b e) [] (e + 4) 0 hbody h
      exact ⟨r', left, congrArg some hr⟩
    rw [if_neg hkind] at h
    by_cases hout : hsBodyKind (hsParseHead b e) < 0 ∨
        hsBodyKind (hsParseHead b e) > lim.bodyMax
    · obtain ⟨r', left, hr⟩ := bodyOf_refused (hsParseHead b e) (b.drop (e + 4)) hkind hout
      exact ⟨r', left, congrArg some hr⟩
    have hneg : ¬ hsBodyKind (hsParseHead b e) < 0 := fun h' => hout (.inl h')
    have hbig : ¬ hsBodyKind (hsParseHead b e) > lim.bodyMax := fun h' => hout (.inr h')
    rw [if_neg hout] at h
    have hin := of_decide_eq_true h
    rw [bodyOf_counted _ hneg hbig, List.length_drop, if_neg (by omega)]
    exact ⟨_, _, rfl⟩

end Http
