import Resid.Http.ReadRuns

/-!
# The framing of the event loop, fed as the bytes arrive

Whether a frame is ready depends on the bytes fed so far and not on how they were fed.

    Kept lim b f → hsFrame (b ++ x) f lim = some f', f'.ready = skimOf lim (b ++ x),
      and f' is kept at b ++ x when it is not ready                       (hsFrame_more)

## Algorithm

`skimOf` is the framing as one function of the bytes: it skips chunk data by its length and
looks neither at the bytes of a line nor at what stands behind a chunk.  `hsChunks` walks it,
so a state it stops in leads to the same answer as the state it started from.
-/

namespace Http

open Runtime Net Scan

/-- The trailer line at `pos` of `b` and those after it, `k` more allowed. -/
def skimTrailers (b : List Int) : Nat → Nat → Bool
  | k, pos =>
    match hsCrlf b pos (pos + 8194) with
    | none => decide (b.length ≥ pos + 8194)
    | some i =>
      if i = pos then true
      else
        match k with
        | 0 => true
        | k + 1 => skimTrailers b k (i + 2)
termination_by structural k => k

/-- The size line at `pos` of `b` and the chunks after it, `k` more allowed. -/
def skimChunks (lim : HttpLimits) (b : List Int) : Nat → Nat → Int → Bool
  | k, pos, total =>
    match hsCrlf b pos (pos + 1026) with
    | none => decide (b.length ≥ pos + 1026)
    | some i =>
      let size := chunkSize (hsAscii b pos i)
      if size < 0 ∨ total + size > lim.bodyMax then true
      else if size = 0 then skimTrailers b 64 (i + 2)
      else
        match k with
        | 0 => true
        | k + 1 =>
          let next := i + 2 + size.toNat + 2
          if b.length ≥ next then skimChunks lim b k next (total + size) else false
termination_by structural k => k

/-- The request at the front of `b` is whole, or one the reader will refuse. -/
def skimOf (lim : HttpLimits) (b : List Int) : Bool :=
  match hsFind b [13, 10, 13, 10] 0 with
  | none => decide ((b.length : Int) > lim.headMax)
  | some e =>
    if (e : Int) + 4 > lim.headMax then true
    else
      let r := hsParseHead b e
      if !r.ok then true
      else
        let kind := hsBodyKind r
        if kind = -2 then skimChunks lim b hsChunksMax (e + 4) 0
        else if kind < 0 ∨ kind > lim.bodyMax then true
        else decide (b.length ≥ e + 4 + kind.toNat)

/-! ## Lines -/

variable {b : List Int} {i k start stop : Nat} {lim : HttpLimits} {f : HsFrame}

theorem hsCrlf_some :
    hsCrlf b start stop = some i ↔ hsFind b [13, 10] start = some i ∧ i + 2 ≤ stop :=
  find_take crlf_ne_nil

theorem hsCrlf_append (x : List Int) (h : hsCrlf b start stop = some i) :
    hsCrlf (b ++ x) start stop = some i := by
  rw [hsCrlf_some] at h ⊢
  exact ⟨find_append x crlf_ne_nil h.1, h.2⟩

theorem hsCrlf_le (h : hsCrlf b start stop = some i) : start ≤ i ∧ i + 2 ≤ b.length := by
  have hle := find_le crlf_ne_nil (hsCrlf_some.1 h).1
  rw [List.length_cons, List.length_singleton] at hle
  exact hle

/-- A window that is full and holds no CRLF never will. -/
theorem hsCrlf_append_none (x : List Int) (h : hsCrlf b start stop = none)
    (hfull : b.length ≥ stop) : hsCrlf (b ++ x) start stop = none := by
  rw [hsCrlf, List.take_append_of_le_length hfull]
  exact h

/-! ## More bytes -/

theorem skimTrailers_none {pos : Nat} (hl : hsCrlf b pos (pos + 8194) = none) :
    skimTrailers b k pos = decide (b.length ≥ pos + 8194) := by
  rw [skimTrailers, hl]

theorem skimTrailers_some {pos : Nat} (hl : hsCrlf b pos (pos + 8194) = some i) :
    skimTrailers b k pos = if i = pos ∨ k = 0 then true else skimTrailers b (k - 1) (i + 2) := by
  rw [skimTrailers, hl]
  cases k <;> by_cases hi : i = pos <;> simp [hi]

theorem skimTrailers_append (x : List Int) {pos : Nat} (h : skimTrailers b k pos = true) :
    skimTrailers (b ++ x) k pos = true := by
  induction k using Nat.strongRecOn generalizing pos with
  | ind k ih =>
    cases hl : hsCrlf b pos (pos + 8194) with
    | none =>
      rw [skimTrailers_none hl] at h
      have hfull := of_decide_eq_true h
      rw [skimTrailers_none (hsCrlf_append_none x hl hfull), List.length_append]
      exact decide_eq_true (by omega)
    | some i =>
      rw [skimTrailers_some hl] at h
      rw [skimTrailers_some (hsCrlf_append x hl)]
      split_ifs at h ⊢ with hend
      · rfl
      · exact ih (k - 1) (by omega) h

theorem skimChunks_none {pos : Nat} {total : Int} (hl : hsCrlf b pos (pos + 1026) = none) :
    skimChunks lim b k pos total = decide (b.length ≥ pos + 1026) := by
  rw [skimChunks, hl]

/-- The rest after a size line, `size` in it. -/
theorem skimChunks_some {pos : Nat} {total size : Int} (hl : hsCrlf b pos (pos + 1026) = some i)
    (hsize : chunkSize (hsAscii b pos i) = size) : skimChunks lim b k pos total =
      if size < 0 ∨ total + size > lim.bodyMax then true
      else if size = 0 then skimTrailers b 64 (i + 2)
      else if k = 0 then true
      else if b.length ≥ i + 2 + size.toNat + 2 then
        skimChunks lim b (k - 1) (i + 2 + size.toNat + 2) (total + size)
      else false := by
  subst hsize
  rw [skimChunks, hl]
  cases k <;> rfl

theorem skimChunks_append (x : List Int) {pos : Nat} {total : Int}
    (h : skimChunks lim b k pos total = true) : skimChunks lim (b ++ x) k pos total = true := by
  induction k using Nat.strongRecOn generalizing pos total with
  | ind k ih =>
    cases hl : hsCrlf b pos (pos + 1026) with
    | none =>
      rw [skimChunks_none hl] at h
      have hfull := of_decide_eq_true h
      rw [skimChunks_none (hsCrlf_append_none x hl hfull), List.length_append]
      exact decide_eq_true (by omega)
    | some i =>
      have hle := (hsCrlf_le hl).2
      rw [skimChunks_some hl rfl] at h
      rw [skimChunks_some (hsCrlf_append x hl) rfl, hsAscii_append x (by omega)]
      split_ifs at h with hbad hzero hk hin
      · rw [if_pos hbad]
      · rw [if_neg hbad, if_pos hzero]
        exact skimTrailers_append x h
      · rw [if_neg hbad, if_neg hzero, if_pos hk]
      · rw [if_neg hbad, if_neg hzero, if_neg hk, if_pos (by rw [List.length_append]; omega)]
        exact ih (k - 1) (by omega) h

/-- A request the framer is done with stays so. -/
theorem skimOf_append (x : List Int) (h : skimOf lim b = true) : skimOf lim (b ++ x) = true := by
  rw [skimOf] at h
  cases hf : hsFind b [13, 10, 13, 10] 0 with
  | some e =>
    have hle := (find_le head_ne_nil hf).2
    simp only [List.length_cons, List.length_nil] at hle
    have hf' : hsFind (b ++ x) [13, 10, 13, 10] 0 = some e := find_append x head_ne_nil hf
    rw [hf] at h
    rw [skimOf, hf']
    simp only at h ⊢
    rw [hsParseHead_append x (by omega)]
    split_ifs at h ⊢
    · rfl
    · rfl
    · exact skimChunks_append x h
    · rfl
    · have hin := of_decide_eq_true h
      rw [List.length_append]
      exact decide_eq_true (by omega)
  | none =>
    rw [hf] at h
    have hmax := of_decide_eq_true h
    rw [skimOf]
    cases hf' : hsFind (b ++ x) [13, 10, 13, 10] 0 with
    | none =>
      rw [List.length_append]
      exact decide_eq_true (by omega)
    | some e =>
      simp only
      rw [if_pos]
      -- a terminator found later ends past the limit
      have hsome := (find_eq_some head_ne_nil).1 hf'
      have hnone := (find_eq_none head_ne_nil).1 hf
      by_contra hmax'
      apply hnone e (Nat.zero_le e)
      refine (prefix_drop_append ?_).1 hsome.2.1
      simp only [List.length_cons, List.length_nil]
      omega

/-! ## The chunk scanner -/

/-- Whether the scanner at `f` finishes on the bytes `b`. -/
def HsFrame.skim (lim : HttpLimits) (b : List Int) (f : HsFrame) : Bool :=
  if f.cstate = 1 then
    if b.length ≥ f.cpos then skimChunks lim b (hsChunksMax - f.lines) f.cpos f.total else false
  else if f.cstate = 2 then skimTrailers b (64 - f.lines) f.cpos
  else skimChunks lim b (hsChunksMax - f.lines) f.cpos f.total

/-- The counts of a scanner that is not done. -/
def HsFrame.Scanning (f : HsFrame) : Prop :=
  f.ready = false ∧ (f.cstate = 0 ∨ f.cstate = 1 ∨ f.cstate = 2) ∧
    (f.cstate = 2 → f.lines ≤ 64) ∧ (f.cstate ≠ 2 → f.lines ≤ hsChunksMax)

theorem HsFrame.Scanning.chunk (f : HsFrame) (cpos : Nat) (total : Int) {cstate lines : Nat}
    (h : cstate = 2 ∧ lines ≤ 64 ∨ (cstate = 0 ∨ cstate = 1) ∧ lines ≤ hsChunksMax) :
    (hsFrameChunk f cpos cstate total lines).Scanning := by
  refine ⟨rfl, ?_, ?_, ?_⟩
  · show cstate = 0 ∨ cstate = 1 ∨ cstate = 2
    omega
  · show cstate = 2 → lines ≤ 64
    omega
  · show cstate ≠ 2 → lines ≤ hsChunksMax
    omega

/-- The scanner went on from `f` to `f'`: it is done as the bytes say, or it keeps the place
that more bytes are read from. -/
structure HsFrame.Leads (lim : HttpLimits) (b : List Int) (f f' : HsFrame) : Prop where
  ready : f'.ready = f.skim lim b
  head : f'.ready = false → f'.headEnd = f.headEnd ∧ f'.stop = f.stop ∧ f'.Scanning
  more : f'.ready = false → ∀ x, f'.skim lim (b ++ x) = f.skim lim (b ++ x)

theorem HsFrame.Leads.trans {g f' : HsFrame} (h : g.Leads lim b f')
    (hhead : g.headEnd = f.headEnd ∧ g.stop = f.stop)
    (hskim : ∀ x, g.skim lim (b ++ x) = f.skim lim (b ++ x)) : f.Leads lim b f' := by
  have hnil := hskim []
  rw [List.append_nil] at hnil
  constructor
  · rw [h.ready, hnil]
  · intro hready
    obtain ⟨h1, h2, h3⟩ := h.head hready
    exact ⟨h1.trans hhead.1, h2.trans hhead.2, h3⟩
  · intro hready x
    rw [h.more hready x, hskim x]

theorem HsFrame.Leads.done {f' : HsFrame} (h : f.skim lim b = true) (hready : f'.ready = true) :
    f.Leads lim b f' := by
  constructor
  · rw [hready, h]
  · intro hnot
    rw [hready] at hnot
    cases hnot
  · intro hnot
    rw [hready] at hnot
    cases hnot

theorem HsFrame.Leads.stay (hf : f.Scanning) (h : f.skim lim b = false) : f.Leads lim b f :=
  ⟨hf.1.trans h.symm, fun _ => ⟨rfl, rfl, hf⟩, fun _ _ => rfl⟩

theorem HsFrame.skim_trailer (h : f.cstate = 2) :
    f.skim lim b = skimTrailers b (64 - f.lines) f.cpos := by
  rw [HsFrame.skim, h]
  rfl

theorem HsFrame.skim_size (h : f.cstate = 0) :
    f.skim lim b = skimChunks lim b (hsChunksMax - f.lines) f.cpos f.total := by
  rw [HsFrame.skim, h]
  rfl

theorem HsFrame.skim_data (h : f.cstate = 1) : f.skim lim b =
      if b.length ≥ f.cpos then skimChunks lim b (hsChunksMax - f.lines) f.cpos f.total
      else false := by
  rw [HsFrame.skim, if_pos h]

theorem hsChunks_trailer (h : f.cstate = 2) : hsChunks b f lim =
      match hsCrlf b f.cpos (f.cpos + 8194) with
      | none => if (b.length : Int) - f.cpos ≥ 8194 then some (hsFrameReady f) else some f
      | some i =>
        if i = f.cpos then
          some ⟨f.scan, f.headEnd, some (i + 2), i + 2, 2, f.total, f.lines, true⟩
        else if f.lines ≥ 64 then some (hsFrameReady f)
        else hsChunks b (hsFrameChunk f (i + 2) 2 f.total (f.lines + 1)) lim := by
  rw [hsChunks_eq, hsChunksStep, h]
  rfl

theorem hsChunks_size (h : f.cstate = 0) : hsChunks b f lim =
      match hsCrlf b f.cpos (f.cpos + 1026) with
      | none => if (b.length : Int) - f.cpos ≥ 1026 then some (hsFrameReady f) else some f
      | some i =>
        let size := chunkSize (hsAscii b f.cpos i)
        if size < 0 ∨ f.total + size > lim.bodyMax then some (hsFrameReady f)
        else if size = 0 then hsChunks b (hsFrameChunk f (i + 2) 2 f.total 0) lim
        else if f.lines ≥ hsChunksMax then some (hsFrameReady f)
        else
          hsChunks b (hsFrameChunk f (i + 2 + size.toNat + 2) 1 (f.total + size) (f.lines + 1))
            lim := by
  rw [hsChunks_eq, hsChunksStep, h]
  rfl

theorem hsChunks_data (h : f.cstate = 1) : hsChunks b f lim =
      if b.length ≥ f.cpos then hsChunks b (hsFrameChunk f f.cpos 0 f.total f.lines) lim
      else some f := by
  rw [hsChunks_eq, hsChunksStep, if_pos h]

/-- No line is there: the scanner is done when its window is full. -/
theorem HsFrame.Scanning.wait {w : Nat} (hf : f.Scanning)
    (h : f.skim lim b = decide (b.length ≥ f.cpos + w)) :
    ∃ f', (if (b.length : Int) - f.cpos ≥ w then some (hsFrameReady f) else some f) = some f' ∧
      f.Leads lim b f' := by
  by_cases hfull : (b.length : Int) - f.cpos ≥ w
  · exact ⟨_, if_pos hfull, .done (h.trans (decide_eq_true (by omega))) rfl⟩
  · exact ⟨_, if_neg hfull, .stay hf (h.trans (decide_eq_false (by omega)))⟩

theorem hsChunks_trailers_run (lim : HttpLimits) (b : List Int) (hf : f.Scanning)
    (hstate : f.cstate = 2) (hk : 64 - f.lines = k) :
    ∃ f', hsChunks b f lim = some f' ∧ f.Leads lim b f' := by
  induction k using Nat.strongRecOn generalizing f with
  | ind k ih =>
    have hlines := hf.2.2.1 hstate
    have hskim : ∀ x, f.skim lim (b ++ x) = skimTrailers (b ++ x) k f.cpos := by
      intro x
      rw [HsFrame.skim_trailer hstate, hk]
    have hhere := hskim []
    rw [List.append_nil] at hhere
    rw [hsChunks_trailer hstate]
    cases hl : hsCrlf b f.cpos (f.cpos + 8194) with
    | none => exact hf.wait (hhere.trans (skimTrailers_none hl))
    | some i =>
      rw [skimTrailers_some hl] at hhere
      simp only
      by_cases hi : i = f.cpos
      · rw [if_pos hi]
        rw [if_pos (Or.inl hi)] at hhere
        exact ⟨_, rfl, .done hhere rfl⟩
      rw [if_neg hi]
      by_cases hlast : k = 0
      · rw [if_pos (Or.inr hlast)] at hhere
        rw [if_pos (by omega)]
        exact ⟨_, rfl, .done hhere rfl⟩
      rw [if_neg (by omega)]
      -- one line on, at the next trailer
      have hnext : 64 - (f.lines + 1) = k - 1 := by omega
      obtain ⟨f', hrun, hleads⟩ := @ih (k - 1) (by omega)
        (hsFrameChunk f (i + 2) 2 f.total (f.lines + 1)) (.chunk f _ _ (.inl ⟨rfl, by omega⟩)) rfl
        hnext
      refine ⟨f', hrun, hleads.trans ⟨rfl, rfl⟩ ?_⟩
      intro x
      rw [hskim x, skimTrailers_some (hsCrlf_append x hl), HsFrame.skim_trailer rfl]
      simp only [hsFrameChunk]
      rw [if_neg (not_or.2 ⟨hi, hlast⟩), hnext]

/-- In chunk data, the scanner waits for its end and goes on at a size line. -/
theorem hsChunks_data_run (lim : HttpLimits) (b : List Int) (hf : f.Scanning)
    (hstate : f.cstate = 1)
    (hsize : ∃ f', hsChunks b (hsFrameChunk f f.cpos 0 f.total f.lines) lim = some f' ∧
      (hsFrameChunk f f.cpos 0 f.total f.lines).Leads lim b f') :
    ∃ f', hsChunks b f lim = some f' ∧ f.Leads lim b f' := by
  rw [hsChunks_data hstate]
  by_cases hin : b.length ≥ f.cpos
  · obtain ⟨f', hrun, hleads⟩ := hsize
    refine ⟨f', (if_pos hin).trans hrun, hleads.trans ⟨rfl, rfl⟩ ?_⟩
    intro x
    rw [HsFrame.skim_data hstate, HsFrame.skim_size rfl,
      if_pos (by rw [List.length_append]; omega)]
    rfl
  · refine ⟨f, if_neg hin, .stay hf ?_⟩
    rw [HsFrame.skim_data hstate, if_neg hin]

theorem hsChunks_sizes_run (lim : HttpLimits) (b : List Int) (hf : f.Scanning)
    (hstate : f.cstate = 0) (hk : hsChunksMax - f.lines = k) :
    ∃ f', hsChunks b f lim = some f' ∧ f.Leads lim b f' := by
  induction k using Nat.strongRecOn generalizing f with
  | ind k ih =>
    have hlines : f.lines ≤ hsChunksMax := hf.2.2.2 (by omega)
    have hskim : ∀ x, f.skim lim (b ++ x) = skimChunks lim (b ++ x) k f.cpos f.total := by
      intro x
      rw [HsFrame.skim_size hstate, hk]
    have hhere := hskim []
    rw [List.append_nil] at hhere
    rw [hsChunks_size hstate]
    cases hl : hsCrlf b f.cpos (f.cpos + 1026) with
    | none => exact hf.wait (hhere.trans (skimChunks_none hl))
    | some i =>
      have hle := (hsCrlf_le hl).2
      generalize hsize : chunkSize (hsAscii b f.cpos i) = size
      have hmore := fun x => (hskim x).trans (skimChunks_some (hsCrlf_append x hl)
        ((congrArg chunkSize (hsAscii_append x (by omega))).trans hsize))
      rw [skimChunks_some hl hsize] at hhere
      simp only [hsize]
      by_cases hbad : size < 0 ∨ f.total + size > lim.bodyMax
      · rw [if_pos hbad] at hhere ⊢
        exact ⟨_, rfl, .done hhere rfl⟩
      rw [if_neg hbad] at hhere ⊢
      by_cases hzero : size = 0
      · rw [if_pos hzero]
        obtain ⟨f', hrun, hleads⟩ := hsChunks_trailers_run lim b
          (f := hsFrameChunk f (i + 2) 2 f.total 0)
          (.chunk f _ _ (.inl ⟨rfl, Nat.zero_le 64⟩)) rfl rfl
        refine ⟨f', hrun, hleads.trans ⟨rfl, rfl⟩ ?_⟩
        intro x
        rw [hmore x, if_neg hbad, if_pos hzero, HsFrame.skim_trailer rfl]
        rfl
      rw [if_neg hzero] at hhere ⊢
      by_cases hlast : k = 0
      · rw [if_pos hlast] at hhere
        rw [if_pos (by omega)]
        exact ⟨_, rfl, .done hhere rfl⟩
      rw [if_neg (by omega)]
      have hnext : hsChunksMax - (f.lines + 1) = k - 1 := by omega
      have hcount : f.lines + 1 ≤ hsChunksMax := by omega
      -- the chunk's data first, then the next size line
      obtain ⟨f', hrun, hleads⟩ := hsChunks_data_run lim b
        (f := hsFrameChunk f (i + 2 + size.toNat + 2) 1 (f.total + size) (f.lines + 1))
        (.chunk f _ _ (.inr ⟨.inr rfl, hcount⟩)) rfl
        (ih (k - 1) (by omega) (.chunk _ _ _ (.inr ⟨.inl rfl, hcount⟩)) rfl hnext)
      refine ⟨f', hrun, hleads.trans ⟨rfl, rfl⟩ ?_⟩
      intro x
      rw [hmore x, if_neg hbad, if_neg hzero, if_neg hlast, HsFrame.skim_data rfl]
      simp only [hsFrameChunk, hnext]

/-- The scanner returns, with what the bytes say of the request. -/
theorem hsChunks_run (lim : HttpLimits) (b : List Int) (hf : f.Scanning) :
    ∃ f', hsChunks b f lim = some f' ∧ f.Leads lim b f' := by
  rcases hf.2.1 with hstate | hstate | hstate
  · exact hsChunks_sizes_run lim b hf hstate rfl
  · apply hsChunks_data_run lim b hf hstate
    have hlines : f.lines ≤ hsChunksMax := hf.2.2.2 (by omega)
    exact hsChunks_sizes_run lim b (.chunk _ _ _ (.inr ⟨.inl rfl, hlines⟩)) rfl rfl
  · exact hsChunks_trailers_run lim b hf hstate rfl

/-! ## The frame -/

/-- A frame kept from the bytes `b`, to be gone on with when more are there. -/
def Kept (lim : HttpLimits) (b : List Int) (f : HsFrame) : Prop :=
  f.ready = false ∧
    match f.headEnd with
    | none => hsFind b [13, 10, 13, 10] 0 = none ∧ f.scan ≤ b.length
    | some e =>
      hsFind b [13, 10, 13, 10] 0 = some e ∧ (e : Int) + 4 ≤ lim.headMax ∧
        (hsParseHead b e).ok = true ∧
        match f.stop with
        | some stop =>
          0 ≤ hsBodyKind (hsParseHead b e) ∧ hsBodyKind (hsParseHead b e) ≤ lim.bodyMax ∧
            stop = e + 4 + (hsBodyKind (hsParseHead b e)).toNat
        | none =>
          hsBodyKind (hsParseHead b e) = -2 ∧ f.Scanning ∧
            ∀ x, f.skim lim (b ++ x) = skimChunks lim (b ++ x) hsChunksMax (e + 4) 0

theorem kept_new (lim : HttpLimits) : Kept lim [] hsFrameNew := by
  refine ⟨rfl, ?_, Nat.le_refl 0⟩
  rfl

/-- The frame once the head is found at `e`. -/
theorem hsFrame_head {e : Nat} (hready : f.ready = false) (hhead : f.headEnd = none)
    (hat : hsFind b [13, 10, 13, 10] (f.scan - 3) = some e)
    (hf : hsFind b [13, 10, 13, 10] 0 = some e) :
    ∃ f', hsFrame b f lim = some f' ∧ f'.ready = skimOf lim b ∧
      (f'.ready = false → Kept lim b f') := by
  rw [hsFrame, hready, hhead]
  simp only [Bool.false_eq_true, if_false]
  rw [hat, skimOf, hf]
  simp only
  by_cases hmax : (e : Int) + 4 > lim.headMax
  · rw [if_pos hmax, if_pos hmax]
    exact ⟨_, rfl, rfl, fun h => by cases h⟩
  by_cases hok : (!(hsParseHead b e).ok) = true
  · rw [if_neg hmax, if_neg hmax, if_pos hok, if_pos hok]
    exact ⟨_, rfl, rfl, fun h => by cases h⟩
  rw [if_neg hmax, if_neg hmax, if_neg hok, if_neg hok]
  have hok' : (hsParseHead b e).ok = true := by simpa using hok
  by_cases hkind : hsBodyKind (hsParseHead b e) = -2
  · rw [if_pos hkind, if_pos hkind]
    obtain ⟨f', hrun, hleads⟩ := hsChunks_run lim b
      (.chunk ⟨b.length, some e, none, e + 4, 0, 0, 0, false⟩ (e + 4) 0
        (.inr ⟨.inl rfl, Nat.zero_le _⟩))
    have hskim : ∀ d, (hsFrameChunk ⟨b.length, some e, none, e + 4, 0, 0, 0, false⟩ (e + 4) 0 0
        0).skim lim d = skimChunks lim d hsChunksMax (e + 4) 0 := by
      intro d
      rw [HsFrame.skim_size rfl]
      simp only [hsFrameChunk, Nat.sub_zero]
    refine ⟨f', hrun, hleads.ready.trans (hskim b), ?_⟩
    intro hready'
    obtain ⟨h1, h2, h3⟩ := hleads.head hready'
    refine ⟨hready', ?_⟩
    rw [h1]
    refine ⟨hf, by omega, hok', ?_⟩
    rw [h2]
    refine ⟨hkind, h3, ?_⟩
    intro x
    exact (hleads.more hready' x).trans (hskim (b ++ x))
  by_cases hout : hsBodyKind (hsParseHead b e) < 0 ∨ hsBodyKind (hsParseHead b e) > lim.bodyMax
  · rw [if_neg hkind, if_neg hkind, if_pos hout, if_pos hout]
    exact ⟨_, rfl, rfl, fun h => by cases h⟩
  rw [if_neg hkind, if_neg hkind, if_neg hout, if_neg hout]
  refine ⟨_, rfl, rfl, ?_⟩
  intro hready'
  exact ⟨hready', hf, by omega, hok', by omega, by omega, rfl⟩

/-- Feeding more bytes to a kept frame says what all the bytes so far say. -/
theorem hsFrame_more (h : Kept lim b f) (x : List Int) :
    ∃ f', hsFrame (b ++ x) f lim = some f' ∧ f'.ready = skimOf lim (b ++ x) ∧
      (f'.ready = false → Kept lim (b ++ x) f') := by
  obtain ⟨hready, h⟩ := h
  cases hhead : f.headEnd with
  | none =>
    rw [hhead] at h
    obtain ⟨hnone, hscan⟩ := h
    have hresume : hsFind (b ++ x) [13, 10, 13, 10] 0 =
        hsFind (b ++ x) [13, 10, 13, 10] (f.scan - 3) := by
      apply find_resume head_ne_nil hnone (Nat.zero_le _)
      simp only [List.length_cons, List.length_nil]
      omega
    cases hat : hsFind (b ++ x) [13, 10, 13, 10] (f.scan - 3) with
    | some e => exact hsFrame_head hready hhead hat (hresume.trans hat)
    | none =>
      have hf := hresume.trans hat
      rw [hsFrame, hready, hhead]
      simp only [Bool.false_eq_true, if_false]
      rw [hat, skimOf, hf]
      refine ⟨_, rfl, rfl, ?_⟩
      intro hready'
      exact ⟨hready', hf, Nat.le_refl _⟩
  | some e =>
    rw [hhead] at h
    obtain ⟨hf, hmax, hok, h⟩ := h
    have hle := (find_le head_ne_nil hf).2
    simp only [List.length_cons, List.length_nil] at hle
    have hf' : hsFind (b ++ x) [13, 10, 13, 10] 0 = some e := find_append x head_ne_nil hf
    have hparse : hsParseHead (b ++ x) e = hsParseHead b e := hsParseHead_append x (by omega)
    rw [hsFrame, hready, hhead, skimOf, hf']
    simp only [Bool.false_eq_true, if_false]
    rw [if_neg (by omega), hparse, hok]
    simp only [Bool.not_true, Bool.false_eq_true, if_false]
    cases hstop : f.stop with
    | some stop =>
      rw [hstop] at h
      obtain ⟨hkind, hbody, hstop'⟩ := h
      have hchunked : ¬ hsBodyKind (hsParseHead b e) = -2 := by omega
      have hout : ¬ (hsBodyKind (hsParseHead b e) < 0 ∨
        hsBodyKind (hsParseHead b e) > lim.bodyMax) := by omega
      simp only
      rw [if_neg hchunked, if_neg hout]
      by_cases hin : (b ++ x).length ≥ stop
      · rw [if_pos hin]
        refine ⟨_, rfl, ?_, fun h => by cases h⟩
        exact (decide_eq_true (by omega)).symm
      · rw [if_neg hin]
        refine ⟨f, rfl, ?_, ?_⟩
        · rw [hready]
          exact (decide_eq_false (by omega)).symm
        · intro _
          refine ⟨hready, ?_⟩
          rw [hhead]
          refine ⟨hf', hmax, by rw [hparse]; exact hok, ?_⟩
          rw [hstop, hparse]
          exact ⟨hkind, hbody, hstop'⟩
    | none =>
      rw [hstop] at h
      obtain ⟨hkind, hscan, hskim⟩ := h
      simp only
      rw [if_pos hkind]
      obtain ⟨f', hrun, hleads⟩ := hsChunks_run lim (b ++ x) hscan
      refine ⟨f', hrun, hleads.ready.trans (hskim x), ?_⟩
      intro hready'
      obtain ⟨h1, h2, h3⟩ := hleads.head hready'
      refine ⟨hready', ?_⟩
      rw [h1, hhead]
      refine ⟨hf', hmax, by rw [hparse]; exact hok, ?_⟩
      rw [h2, hstop, hparse]
      refine ⟨hkind, h3, ?_⟩
      intro y
      rw [hleads.more hready' y, List.append_assoc]
      exact hskim (x ++ y)

end Http
