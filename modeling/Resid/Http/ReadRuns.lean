import Resid.Http.Framing

/-!
# What the reader answers

    Until (the line is settled) b b' → hsReadLineAt b start start max ends where
      lineOf b'.data start max says                                       (hsReadLineAt_run)
    Until (the request is settled) b b' → hsReadRequest b lim answers what
      requestOf lim b'.data says                                          (hsReadRequest_run)
-/

namespace Http

open Runtime Net Scan

variable {ρ T : Type} [Wire ρ T] [Pieces T] [PieceWire ρ T]

/-! ## Lines and heads -/

/-- The reader looks no further for the end of the line. -/
def Line.settled : Line → Bool
  | .short edge => edge
  | _ => true

/-- Where the reader takes the line to end when it looks no further. -/
def Line.stop : Line → HsEnd
  | .at e => .at e
  | .past => .past
  | .short true => .past
  | .short false => .eof

variable {b b' : HsBuf T} {e k max start : Nat} {headMax : Int} {r : HttpRequest} {acc d : List Int}
  {lim : HttpLimits}

theorem lineOf_unsettled {b : List Int} (h : (lineOf b start max).settled = false) :
    hsFind b [13, 10] start = none ∧ b.length ≤ start + max := by
  rw [lineOf] at h
  cases hf : hsFind b [13, 10] start with
  | some e =>
    rw [hf] at h
    simp only at h
    split_ifs at h <;> cases h
  | none =>
    rw [hf] at h
    simp only at h
    by_cases hlen : b.length ≤ start + max
    · exact ⟨rfl, hlen⟩
    · rw [if_neg hlen] at h
      split_ifs at h <;> cases h

/-- How the reader's own tests read the line at hand. -/
theorem lineOf_stop {b : List Int} : (lineOf b start max).stop =
      match hsFind b [13, 10] start with
      | some e => if (e : Int) - start > max then .past else .at e
      | none => if (b.length : Int) - start > max then .past else .eof := by
  rw [lineOf]
  cases hf : hsFind b [13, 10] start with
  | some e =>
    simp only
    by_cases he : e > start + max
    · rw [if_pos he, if_pos (by omega)]
      rfl
    · rw [if_neg he, if_neg (by omega)]
      rfl
  | none =>
    simp only
    by_cases hlen : b.length ≤ start + max
    · rw [if_pos hlen, if_neg (by omega)]
      rfl
    · have hlong : (b.length : Int) - start > max := by omega
      rw [if_neg hlen, if_pos hlong]
      split_ifs <;> rfl

theorem hsReadLineAt_run {resume : Nat} (w : World ρ)
    (h : Until (fun d => (lineOf d start max).settled) b b')
    (hresume : hsFind b.data [13, 10] start = hsFind b.data [13, 10] resume) :
    hsReadLineAt b start resume max w = some (⟨b', (lineOf b'.data start max).stop⟩, w) := by
  induction h generalizing resume with
  | stop hstop =>
    rename_i b
    rw [hsReadLineAt_eq, hsReadLineAtStep, lineOf_stop, ← hresume]
    cases hf : hsFind b.data [13, 10] start with
    | some e => rfl
    | none =>
      simp only
      by_cases hlen : (b.data.length : Int) - start > max
      · rw [if_pos hlen, if_pos hlen]
        rfl
      · have heof : b.eof = true := by
          rcases hstop with hstop | hstop
          · exfalso
            rw [lineOf, hf] at hstop
            simp only at hstop
            rw [if_pos (by omega)] at hstop
            cases hstop
          · exact hstop
        rw [if_neg hlen, if_neg hlen, if_pos heof]
        rfl
  | pull hP heof hrest ih =>
    rename_i b b'
    obtain ⟨hf, hlen⟩ := lineOf_unsettled hP
    obtain ⟨next, hnext⟩ : ∃ next, next =
        if (b.data.length : Int) - 1 > start then b.data.length - 1 else start := ⟨_, rfl⟩
    have hstep : hsReadLineAt b start resume max w = hsReadLineAt b.pull start next max w := by
      rw [hsReadLineAt_eq, hsReadLineAtStep, ← hresume, hf]
      simp only
      rw [if_neg (by omega), if_neg (by simp [heof]), ← hnext]
      exact bind_run (hsFill_more w heof (by omega))
    rw [hstep]
    apply ih
    apply find_resume crlf_ne_nil hf
    · split_ifs at hnext <;> omega
    · simp only [List.length_cons, List.length_nil]
      split_ifs at hnext <;> omega

theorem hsReadLine_run (w : World ρ) (h : Until (fun d => (lineOf d 0 max).settled) b b') :
    hsReadLine b max w = some (⟨b', (lineOf b'.data 0 max).stop⟩, w) := by
  induction h with
  | stop hstop =>
    rename_i b
    rw [hsReadLine_eq, hsReadLineStep, lineOf_stop]
    cases hf : hsFind b.data [13, 10] 0 with
    | some e =>
      simp only [Nat.cast_zero, Int.sub_zero]
      rfl
    | none =>
      simp only [Nat.cast_zero, Int.sub_zero]
      by_cases hlen : (b.data.length : Int) > max
      · rw [if_pos hlen, if_pos hlen]
        rfl
      · have heof : b.eof = true := by
          rcases hstop with hstop | hstop
          · exfalso
            rw [lineOf, hf] at hstop
            simp only at hstop
            rw [if_pos (by omega)] at hstop
            cases hstop
          · exact hstop
        rw [if_neg hlen, if_neg hlen, if_pos heof]
        rfl
  | pull hP heof hrest ih =>
    rename_i b b'
    obtain ⟨hf, hlen⟩ := lineOf_unsettled hP
    have hstep : hsReadLine b max w = hsReadLine b.pull max w := by
      rw [hsReadLine_eq, hsReadLineStep, hf]
      simp only
      rw [if_neg (by omega), if_neg (by simp [heof])]
      exact bind_run (hsFill_more w heof (by omega))
    rw [hstep]
    exact ih

/-- Where the head ends in the bytes at hand; `eof` while it does not. -/
def headOf (b : List Int) (headMax : Int) : HsEnd :=
  match hsFind b [13, 10, 13, 10] 0 with
  | some e => if (e : Int) + 4 > headMax then .past else .at e
  | none => if (b.length : Int) > headMax then .past else .eof

theorem headOf_unsettled {b : List Int} (h : headOf b headMax = .eof) :
    hsFind b [13, 10, 13, 10] 0 = none ∧ (b.length : Int) ≤ headMax := by
  rw [headOf] at h
  cases hf : hsFind b [13, 10, 13, 10] 0 with
  | some e =>
    rw [hf] at h
    simp only at h
    split_ifs at h
  | none =>
    rw [hf] at h
    simp only at h
    split_ifs at h with hlen
    exact ⟨rfl, by omega⟩

theorem hsReadHead_run {resume : Nat} (w : World ρ)
    (h : Until (fun d => decide (headOf d headMax ≠ .eof)) b b')
    (hresume : hsFind b.data [13, 10, 13, 10] 0 = hsFind b.data [13, 10, 13, 10] resume) :
    hsReadHead b resume headMax w = some (⟨b', headOf b'.data headMax⟩, w) := by
  induction h generalizing resume with
  | stop hstop =>
    rename_i b
    rw [hsReadHead_eq, hsReadHeadStep, ← hresume]
    cases hf : hsFind b.data [13, 10, 13, 10] 0 with
    | some e =>
      rw [headOf, hf]
      rfl
    | none =>
      have hhead : headOf b.data headMax =
          if (b.data.length : Int) > headMax then .past else .eof := by
        rw [headOf, hf]
      simp only
      by_cases hlen : (b.data.length : Int) > headMax
      · rw [if_pos hlen] at hhead ⊢
        rw [hhead]
        rfl
      · rw [if_neg hlen] at hhead ⊢
        have heof : b.eof = true := by
          rcases hstop with hstop | hstop
          · exact absurd hhead (of_decide_eq_true hstop)
          · exact hstop
        rw [if_pos heof, hhead]
        rfl
  | pull hP heof hrest ih =>
    rename_i b b'
    obtain ⟨hf, hlen⟩ := headOf_unsettled (by simpa using hP)
    have hstep : hsReadHead b resume headMax w =
        hsReadHead b.pull (b.data.length - 3) headMax w := by
      rw [hsReadHead_eq, hsReadHeadStep, ← hresume, hf]
      simp only
      rw [if_neg (by omega), if_neg (by simp [heof])]
      exact bind_run (hsFill_more w heof (by omega))
    rw [hstep]
    apply ih
    apply find_resume head_ne_nil hf (Nat.zero_le _)
    simp only [List.length_cons, List.length_nil]
    omega

/-! ## Bodies -/

/-- What a reader at the buffer `b` answers on `f`. -/
def HsBuf.reply (b : HsBuf T) (f : Framed) : HsReq T :=
  ⟨f.answer.1, ⟨b.conn, f.answer.2, b.eof⟩⟩

theorem lineOf_short {b : List Int} (h : (lineOf b start max).settled = false) :
    lineOf b start max = .short false := by
  cases hl : lineOf b start max with
  | «at» e => rw [hl] at h; cases h
  | past => rw [hl] at h; cases h
  | short edge => rw [hl] at h; rw [show edge = false from h]

theorem trailersOf_line (h : (trailersOf r k d).settled = true) :
    (lineOf d 0 8192).settled = true := by
  by_contra hline
  rw [trailersOf, lineOf_short (Bool.eq_false_iff.2 hline)] at h
  cases h

theorem chunkedOf_line {total : Int} (h : (chunkedOf lim r d k start acc total).settled = true) :
    (lineOf d start 1024).settled = true := by
  by_contra hline
  rw [chunkedOf, lineOf_short (Bool.eq_false_iff.2 hline)] at h
  cases h

theorem hsChunkTrailers_run {lines : Nat} (w : World ρ) (hk : lines + k = 64)
    (h : Until (fun d => (trailersOf (r.withBody acc) k d).settled) b b') :
    hsChunkTrailers r b acc lines w =
      some (b'.reply (trailersOf (r.withBody acc) k b'.data), w) := by
  induction k using Nat.strong_induction_on generalizing b b' lines with
  | _ k ih =>
    obtain ⟨c, hbc, hcb'⟩ :=
      h.split (Q := fun d => (lineOf d 0 8192).settled) fun y => trailersOf_line
    have hline : hsReadLine b 8192 w = some (⟨c, (lineOf c.data 0 8192).stop⟩, w) :=
      hsReadLine_run w hbc
    rw [hsChunkTrailers_eq, hsChunkTrailersStep, bind_run hline]
    cases hl : lineOf c.data 0 8192 with
    | past =>
      have hc : b' = c := hcb'.eq_of_stop (.inl (by rw [trailersOf, hl]; rfl))
      rw [hc, trailersOf, hl]
      rfl
    | short edge =>
      have hc : b' = c := by
        apply hcb'.eq_of_stop
        rcases hbc.stopped with hs | hs
        · rw [hl] at hs
          exact .inl (by rw [trailersOf, hl]; exact hs)
        · exact .inr hs
      rw [hc, trailersOf, hl]
      cases edge <;> rfl
    | «at» e =>
      obtain ⟨-, -, -, hlen⟩ := lineOf_at hl
      have hhere := trailersOf_step (r := r.withBody acc) (k := k) hl
      -- a line that is whole stays as it is while more pieces come
      have hmore (y : List Int) := trailersOf_step (r := r.withBody acc) (k := k)
        (lineOf_append_at y hl)
      simp only [hsCtlFree_append _ (show e ≤ c.data.length by omega)] at hmore
      show (if (!hsCtlFree c.data 0 e) = true then pure (hsFail 400 c)
        else if e > 0 then
          if lines ≥ 64 then pure (hsFail 400 (c.from (e + 2)))
          else hsChunkTrailers r (c.from (e + 2)) acc (lines + 1)
        else pure ⟨r.withBody acc, c.from (e + 2)⟩ : Eff ρ (HsReq T)) w = _
      by_cases hctl : (!hsCtlFree c.data 0 e) = true
      · rw [if_pos hctl] at hhere ⊢
        have hc : b' = c := hcb'.eq_of_stop (.inl (by rw [hhere]; rfl))
        rw [hc, hhere]
        rfl
      rw [if_neg hctl] at hhere ⊢
      by_cases he : e > 0
      · rw [if_pos he] at hhere ⊢
        cases k with
        | zero =>
          have hc : b' = c := hcb'.eq_of_stop (.inl (by rw [hhere]; rfl))
          rw [hc, hhere, if_pos (by omega)]
          rfl
        | succ k =>
          rw [if_neg (by omega)]
          rw [Nat.add_sub_cancel] at hmore
          obtain ⟨y, hy⟩ := hcb'.prefix
          have hrest : Until (fun d => (trailersOf (r.withBody acc) k d).settled)
              (c.from (e + 2)) (b'.from (e + 2)) := by
            refine hcb'.from hlen ?_
            intro z
            rw [hmore z, if_neg hctl, if_pos he, if_neg k.succ_ne_zero]
          rw [ih k (Nat.lt_succ_self k) (by omega) hrest, hy, hmore y, if_neg hctl, if_pos he,
            if_neg k.succ_ne_zero, ← hy]
          rfl
      · rw [if_neg he] at hhere ⊢
        have hc : b' = c := hcb'.eq_of_stop (.inl (by rw [hhere]; rfl))
        rw [hc, hhere]
        rfl

/-- The answer when a run has to stop where it is. -/
theorem reply_of_stop {f : List Int → Framed} (h : Until (fun d => (f d).settled) b b')
    (hstop : (f b.data).settled = true ∨ b.eof = true) :
    b'.reply (f b'.data) = b.reply (f b.data) := by
  rw [h.eq_of_stop hstop]

theorem hsReadChunked_run {count : Nat} {total : Int} (w : World ρ) (htotal : 0 ≤ total)
    (hk : count + k = hsChunksMax)
    (h : Until (fun d => (chunkedOf lim r d k start acc total).settled) b b') :
    hsReadChunked r b start lim acc total count w =
      some (b'.reply (chunkedOf lim r b'.data k start acc total), w) := by
  induction k using Nat.strong_induction_on generalizing b b' start acc total count with
  | _ k ih =>
    obtain ⟨c, hbc, hcb'⟩ :=
      h.split (Q := fun d => (lineOf d start 1024).settled) fun y => chunkedOf_line
    have hline : hsReadLineAt b start start 1024 w =
        some (⟨c, (lineOf c.data start 1024).stop⟩, w) := hsReadLineAt_run w hbc rfl
    rw [hsReadChunked_eq, hsReadChunkedStep, bind_run hline]
    cases hl : lineOf c.data start 1024 with
    | past =>
      have hc : b' = c := hcb'.eq_of_stop (.inl (by rw [chunkedOf, hl]; rfl))
      rw [hc, chunkedOf, hl]
      rfl
    | short edge =>
      have hc : b' = c := by
        apply hcb'.eq_of_stop
        rcases hbc.stopped with hs | hs
        · rw [hl] at hs
          exact .inl (by rw [chunkedOf, hl]; exact hs)
        · exact .inr hs
      rw [hc, chunkedOf, hl]
      cases edge <;> rfl
    | «at» e =>
      obtain ⟨-, -, -, hlen⟩ := lineOf_at hl
      have hhere := @chunkedOf_step lim r c.data acc k start e total _ hl rfl
      have hmore (y : List Int) :=
        @chunkedOf_step lim r (c.data ++ y) acc k start e total _ (lineOf_append_at y hl) rfl
      simp only [hsCtlFree_append _ (show e ≤ c.data.length by omega),
        hsAscii_append _ (show e ≤ c.data.length by omega)] at hmore
      simp only [Line.stop]
      by_cases hctl : (!hsCtlFree c.data start e) = true
      · rw [if_pos hctl] at hhere ⊢
        rw [reply_of_stop hcb' (.inl (by rw [hhere]; rfl)), hhere]
        rfl
      rw [if_neg hctl] at hhere ⊢
      generalize hsize : chunkSize (hsAscii c.data start e) = size at hhere hmore ⊢
      by_cases hneg : size < 0
      · rw [if_pos hneg] at hhere ⊢
        rw [reply_of_stop hcb' (.inl (by rw [hhere]; rfl)), hhere]
        rfl
      rw [if_neg hneg] at hhere ⊢
      by_cases hzero : size = 0
      · rw [if_pos hzero] at hhere ⊢
        have hrest : Until (fun d => (trailersOf (r.withBody acc) 64 d).settled)
            (c.from (e + 2)) (b'.from (e + 2)) := by
          refine hcb'.from hlen ?_
          intro z
          rw [hmore z, if_neg hctl, if_neg hneg, if_pos hzero]
        obtain ⟨y, hy⟩ := hcb'.prefix
        rw [hsChunkTrailers_run w rfl hrest, hy, hmore y, if_neg hctl, if_neg hneg,
          if_pos hzero, ← hy]
        rfl
      rw [if_neg hzero] at hhere ⊢
      by_cases hbig : total + size > lim.bodyMax
      · rw [if_pos hbig] at hhere ⊢
        rw [reply_of_stop hcb' (.inl (by rw [hhere]; rfl)), hhere]
        rfl
      rw [if_neg hbig] at hhere ⊢
      cases k with
      | zero =>
        rw [if_pos (by omega), reply_of_stop hcb' (.inl (by rw [hhere]; rfl)), hhere]
        rfl
      | succ k =>
        rw [if_neg (by omega)]
        rw [if_neg k.succ_ne_zero] at hhere
        simp only [if_neg k.succ_ne_zero, Nat.add_sub_cancel] at hmore
        generalize hstop : e + 2 + size.toNat = stop at hhere hmore ⊢
        -- the chunk and its CRLF are waited for
        obtain ⟨f, hcf, hfb'⟩ : ∃ f, Until (fun d => decide ((d.length : Int) ≥ stop + 2)) c f ∧
            Until (fun d => (chunkedOf lim r d (k + 1) start acc total).settled) f b' := by
          refine hcb'.split ?_
          intro z hz
          by_contra hshort
          rw [hmore z, if_neg hctl, if_neg hneg, if_neg hzero, if_neg hbig, if_pos] at hz
          · cases hz
          · have hlt := of_decide_eq_false (Bool.eq_false_iff.2 hshort)
            omega
        rw [bind_run (hsFill_run w (by omega) hcf)]
        obtain ⟨y, hy⟩ := hcf.prefix
        have hf := hmore y
        rw [← hy, if_neg hctl, if_neg hneg, if_neg hzero, if_neg hbig] at hf
        by_cases hshort : f.data.length < stop + 2
        · rw [if_pos hshort] at hf ⊢
          have heof : f.eof = true := by
            rcases hcf.stopped with hs | hs
            · have hge := of_decide_eq_true hs
              omega
            · exact hs
          rw [reply_of_stop hfb' (.inr heof), hf]
          rfl
        rw [if_neg hshort] at hf ⊢
        by_cases hcrlf : f.data.getD stop 0 ≠ 13 ∨ f.data.getD (stop + 1) 0 ≠ 10
        · rw [if_pos hcrlf] at hf ⊢
          rw [reply_of_stop hfb' (.inl (by rw [hf]; rfl)), hf]
          rfl
        rw [if_neg hcrlf] at hf ⊢
        -- the chunk stays as it is while more pieces come
        have hsame : ∀ z, chunkedOf lim r (f.data ++ z) (k + 1) start acc total =
            chunkedOf lim r (f.data ++ z) k (stop + 2)
              (acc ++ (f.data.take stop).drop (e + 2)) (total + size) := by
          intro z
          have hz := hmore (y ++ z)
          rw [← List.append_assoc, ← hy, if_neg hctl, if_neg hneg, if_neg hzero, if_neg hbig,
            if_neg (by rw [List.length_append]; omega), getD_append_left (by omega),
            getD_append_left (by omega), if_neg hcrlf,
            List.take_append_of_le_length (by omega)] at hz
          exact hz
        have hrest : Until (fun d => (chunkedOf lim r d k (stop + 2)
            (acc ++ (f.data.take stop).drop (e + 2)) (total + size)).settled) f b' :=
          hfb'.congr fun z => congrArg Framed.settled (hsame z)
        obtain ⟨z, hz⟩ := hfb'.prefix
        rw [ih k (Nat.lt_succ_self k) (by omega) (by omega) hrest, hz, hsame z]

theorem hsReadBody_run (w : World ρ) (h : Until (fun d => (bodyOf lim r d).settled) b b') :
    hsReadBody r b lim w = some (b'.reply (bodyOf lim r b'.data), w) := by
  rw [hsReadBody]
  by_cases h3 : hsBodyKind r = -3
  · have hf : ∀ d, bodyOf lim r d = .whole (hsReject 400) d := fun d => if_pos h3
    rw [if_pos h3, reply_of_stop h (.inl (by rw [hf]; rfl)), hf]
    rfl
  by_cases h4 : hsBodyKind r = -4
  · have hf : ∀ d, bodyOf lim r d = .whole (hsReject 501) d := by
      intro d
      rw [bodyOf, if_neg h3, if_pos h4]
    rw [if_neg h3, if_pos h4, reply_of_stop h (.inl (by rw [hf]; rfl)), hf]
    rfl
  by_cases h5 : hsBodyKind r = -5
  · have hf : ∀ d, bodyOf lim r d = .whole (hsReject 413) d := by
      intro d
      rw [bodyOf, if_neg h3, if_neg h4, if_pos h5]
    rw [if_neg h3, if_neg h4, if_pos h5, reply_of_stop h (.inl (by rw [hf]; rfl)), hf]
    rfl
  by_cases h1 : hsBodyKind r = -1
  · have hf : ∀ d, bodyOf lim r d = .whole r d := by
      intro d
      rw [bodyOf, if_neg h3, if_neg h4, if_neg h5, if_pos h1]
    rw [if_neg h3, if_neg h4, if_neg h5, if_pos h1, reply_of_stop h (.inl (by rw [hf]; rfl)), hf]
    rfl
  by_cases h2 : hsBodyKind r = -2
  · have hf : ∀ d, bodyOf lim r d = chunkedOf lim r d hsChunksMax 0 [] 0 := by
      intro d
      rw [bodyOf, if_neg h3, if_neg h4, if_neg h5, if_neg h1, if_pos h2]
    simp only [hf] at h
    rw [if_neg h3, if_neg h4, if_neg h5, if_neg h1, if_pos h2, hf]
    exact hsReadChunked_run w (Int.le_refl 0) (Nat.zero_add _) h
  by_cases hbig : hsBodyKind r > lim.bodyMax
  · have hf : ∀ d, bodyOf lim r d = .whole (hsReject 413) d := by
      intro d
      rw [bodyOf, if_neg h3, if_neg h4, if_neg h5, if_neg h1, if_neg h2, if_pos hbig]
    rw [if_neg h3, if_neg h4, if_neg h5, if_neg h1, if_neg h2, if_pos hbig,
      reply_of_stop h (.inl (by rw [hf]; rfl)), hf]
    rfl
  have hf : ∀ d, bodyOf lim r d =
      if (d.length : Int) < hsBodyKind r then .short false d
      else .whole (r.withBody (d.take (hsBodyKind r).toNat)) (d.drop (hsBodyKind r).toNat) := by
    intro d
    rw [bodyOf, if_neg h3, if_neg h4, if_neg h5, if_neg h1, if_neg h2, if_neg hbig]
  simp only [hf] at h ⊢
  have hfill : Until (fun d => decide ((d.length : Int) ≥ hsBodyKind r)) b b' := by
    refine h.congr ?_
    intro y
    by_cases hlen : ((b.data ++ y).length : Int) < hsBodyKind r
    · rw [if_pos hlen]
      exact (decide_eq_false (by omega)).symm
    · rw [if_neg hlen]
      exact (decide_eq_true (by omega)).symm
  rw [if_neg h3, if_neg h4, if_neg h5, if_neg h1, if_neg h2, if_neg hbig,
    bind_run (hsFill_run w (by omega) hfill)]
  by_cases hlen : (b'.data.length : Int) < hsBodyKind r
  · rw [if_pos hlen, if_pos hlen]
    rfl
  · rw [if_neg hlen, if_neg hlen]
    rfl

/-! ## Requests -/

theorem requestOf_none (h : headOf d lim.headMax = .eof) : requestOf lim d = none := by
  obtain ⟨hf, hlen⟩ := headOf_unsettled h
  rw [requestOf, hf]
  simp only
  rw [if_neg (by omega)]

theorem headOf_at (h : headOf d headMax = .at e) :
    hsFind d [13, 10, 13, 10] 0 = some e ∧ (e : Int) + 4 ≤ headMax ∧ e + 4 ≤ d.length := by
  rw [headOf] at h
  cases hf : hsFind d [13, 10, 13, 10] 0 with
  | none =>
    rw [hf] at h
    simp only at h
    split_ifs at h
  | some i =>
    rw [hf] at h
    simp only at h
    split_ifs at h with hmax
    cases h
    have hle := (find_le head_ne_nil hf).2
    simp only [List.length_cons, List.length_nil] at hle
    exact ⟨rfl, by omega, by omega⟩

theorem requestOf_past (h : headOf d lim.headMax = .past) :
    requestOf lim d = some (.whole (hsReject 431) d) := by
  rw [headOf] at h
  rw [requestOf]
  cases hf : hsFind d [13, 10, 13, 10] 0 with
  | none =>
    rw [hf] at h
    simp only at h ⊢
    split_ifs at h with hlen
    rw [if_pos hlen]
  | some i =>
    rw [hf] at h
    simp only at h ⊢
    split_ifs at h with hlen
    rw [if_pos hlen]

/-- A head that is whole stays as it is while more pieces come. -/
theorem requestOf_at (h : headOf d lim.headMax = .at e) (y : List Int) : requestOf lim (d ++ y) =
      if !(hsParseHead d e).ok then some (.whole (hsParseHead d e) ((d ++ y).drop (e + 4)))
      else some (bodyOf lim (hsParseHead d e) ((d ++ y).drop (e + 4))) := by
  obtain ⟨hf, hmax, hlen⟩ := headOf_at h
  have hf' : hsFind (d ++ y) [13, 10, 13, 10] 0 = some e := find_append y head_ne_nil hf
  rw [requestOf, hf']
  simp only
  rw [if_neg (by omega), hsParseHead_append y (by omega)]

/-- The reader answers what the bytes at hand say, at the first piece that settles it. -/
theorem hsReadRequest_run (w : World ρ) (h : Until (settledOf lim) b b') : hsReadRequest b lim w =
      some (⟨(answerOf lim b'.data).1, ⟨b'.conn, (answerOf lim b'.data).2, b'.eof⟩⟩, w) := by
  obtain ⟨c, hbc, hcb'⟩ :=
    h.split (Q := fun d => decide (headOf d lim.headMax ≠ .eof)) (by
      intro y hy
      by_contra hhead
      rw [settledOf, requestOf_none (by simpa using hhead)] at hy
      cases hy)
  rw [hsReadRequest, bind_run (hsReadHead_run w hbc rfl)]
  cases hh : headOf c.data lim.headMax with
  | past =>
    have hc : b' = c := by
      apply hcb'.eq_of_stop
      rw [settledOf, requestOf_past hh]
      exact .inl rfl
    rw [hc, answerOf, requestOf_past hh]
    rfl
  | eof =>
    have hc : b' = c := by
      apply hcb'.eq_of_stop
      rcases hbc.stopped with hs | hs
      · exact absurd hh (of_decide_eq_true hs)
      · exact .inr hs
    rw [hc, answerOf, requestOf_none hh]
    rfl
  | «at» e =>
    obtain ⟨-, -, hlen⟩ := headOf_at hh
    obtain ⟨y, hy⟩ := hcb'.prefix
    simp only
    by_cases hok : (!(hsParseHead c.data e).ok) = true
    · have hhere := requestOf_at hh []
      rw [List.append_nil, if_pos hok] at hhere
      have hc : b' = c := by
        apply hcb'.eq_of_stop
        rw [settledOf, hhere]
        exact .inl rfl
      rw [hc, answerOf, hhere, if_pos hok]
      rfl
    · have hmore := fun z => requestOf_at hh z
      simp only [if_neg hok] at hmore
      have hrest : Until (fun d => (bodyOf lim (hsParseHead c.data e) d).settled)
          (c.from (e + 4)) (b'.from (e + 4)) := by
        refine hcb'.from hlen ?_
        intro z
        rw [settledOf, hmore z]
        rfl
      rw [if_neg hok, hsReadBody_run w hrest, answerOf, hy, hmore y, ← hy]
      rfl

end Http
