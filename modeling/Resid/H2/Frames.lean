import Resid.H2.Integers

/-!
# Frames

A header block or a body is cut into pieces of at most 16384 octets, each the payload of a frame.
The frames are written one after another; a reader takes a header, its payload, and goes on behind.

    h2FrameHdr reads what h2FrameHdrEnc wrote                              (h2FrameHdr_enc)
    readFrames (the frames fs, written) = some fs                          (readFrames_wire)
    h2HcChunk, h2DataAcc write the pieces of their octets           (h2HcChunk_eq, h2DataAcc_eq)
    the pieces, joined, are the octets; the last one alone ends them       (cut_payload, cut_get)

## Algorithm

A piece is the last one where no octet is left behind it, so an empty block is one empty piece and
an exact multiple of the size has none.
-/

namespace H2

/-! ## Algorithm -/

def h2TData : Int := 0

def h2THeaders : Int := 1

def h2TContinuation : Int := 9

structure H2FrameHdr where
  length : Int
  stype : Int
  flags : Int
  sid : Int
  bad : Bool
  deriving DecidableEq

def h2U24 (b : List Int) (pos : Nat) : Int :=
  let hi := b.getD pos 0 * 65536
  let mid := b.getD (pos + 1) 0 * 256
  let lo := b.getD (pos + 2) 0
  hi + mid + lo

/-- The frame header at `pos`; the reserved bit of the stream is dropped. -/
def h2FrameHdr (b : List Int) (pos : Int) : H2FrameHdr :=
  let n : Int := b.length - 1
  if pos < 0 ∨ pos + 8 > n then ⟨0, 0, 0, 0, true⟩
  else
    let p := pos.toNat
    let len := h2U24 b p
    let ty := b.getD (p + 3) 0
    let fl := b.getD (p + 4) 0
    let top := b.getD (p + 5) 0
    let sid := (top - top.tdiv 128 * 128) * 16777216 + b.getD (p + 6) 0 * 65536 +
      b.getD (p + 7) 0 * 256 + b.getD (p + 8) 0
    ⟨len, ty, fl, sid, false⟩

def h2FrameHdrEnc (length stype flags sid : Int) : List Int :=
  let b2 := length.tdiv 65536
  let r1 := length - b2 * 65536
  let b1 := r1.tdiv 256
  let b0 := r1 - b1 * 256
  let s3 := sid.tdiv 16777216
  let sr := sid - s3 * 16777216
  let s2 := sr.tdiv 65536
  let sr2 := sr - s2 * 65536
  let s1 := sr2.tdiv 256
  let s0 := sr2 - s1 * 256
  [b2, b1, b0, stype, flags, s3, s2, s1, s0]

/-- `b` from `i` to `last`, behind `acc`. -/
def h2CatAll (b : List Int) (last : Int) (i : Nat) (acc : List Int) : List Int :=
  if (i : Int) > last then acc else h2CatAll b last (i + 1) (acc ++ [b.getD i 0])
termination_by (last + 1 - i).toNat

def h2Cat (a b : List Int) : List Int := h2CatAll b (b.length - 1) 0 a

def h2Frame (stype flags sid : Int) (payload : List Int) : List Int :=
  let len : Int := payload.length
  let hdr := h2FrameHdrEnc len stype flags sid
  h2CatAll payload (len - 1) 0 hdr

/-- `count` octets from `start`, behind `acc`. -/
def sliceSeed (b : List Int) (start : Nat) (count : Int) (acc : List Int) : List Int :=
  if count ≤ 0 then acc else sliceSeed b (start + 1) (count - 1) (acc ++ [b.getD start 0])
termination_by count.toNat

def h2Pick (c : Bool) (a b : Int) : Int := if c then a else b

/-- How many octets the piece at `i` takes of `n`. -/
def pieceLength (n i : Int) : Int := h2Pick (n - i ≤ 16384) (n - i) 16384

theorem pieceLength_of_more {n i : Int} (h : ¬ i + pieceLength n i - 1 ≥ n - 1) :
    pieceLength n i = 16384 ∧ n - i > 16384 := by
  revert h
  unfold pieceLength h2Pick
  by_cases hfits : n - i ≤ 16384
  · rw [decide_eq_true hfits, if_pos rfl]
    omega
  · rw [decide_eq_false hfits, if_neg Bool.false_ne_true]
    omega

/-- The header frames for `blk` from `i` on. -/
def h2HcChunk (sid extraFlags : Int) (blk : List Int) (i : Nat) (first : Bool) : List Int :=
  let n : Int := blk.length
  let take := pieceLength n i
  let lasti := i + take - 1
  let fin : Bool := lasti ≥ n - 1
  let piece := sliceSeed blk i take []
  let basef := h2Pick first extraFlags 0
  let endh := h2Pick fin 4 0
  let flg := basef + endh
  let ty := h2Pick first h2THeaders h2TContinuation
  let f := h2Frame ty flg sid piece
  if _hfin : i + pieceLength blk.length i - 1 ≥ (blk.length : Int) - 1 then f
  else h2Cat f (h2HcChunk sid extraFlags blk (lasti + 1).toNat false)
termination_by blk.length - i
decreasing_by
  have hmore := pieceLength_of_more _hfin
  omega

def h2HeadersContFrames (sid extraFlags : Int) (blk : List Int) : List Int :=
  h2HcChunk sid extraFlags blk 0 true

/-- The data frames for `payload` from `i` on. -/
def h2DataAcc (sid : Int) (payload : List Int) (stop : Bool) (i : Nat) : List Int :=
  let n : Int := payload.length
  let take := pieceLength n i
  let lasti := i + take - 1
  let fin : Bool := lasti ≥ n - 1
  let piece := sliceSeed payload i take []
  let flg := h2Pick (fin && stop) 1 0
  let f := h2Frame h2TData flg sid piece
  if _hfin : i + pieceLength payload.length i - 1 ≥ (payload.length : Int) - 1 then f
  else h2Cat f (h2DataAcc sid payload stop (lasti + 1).toNat)
termination_by payload.length - i
decreasing_by
  have hmore := pieceLength_of_more _hfin
  omega

def h2DataFrames (sid : Int) (payload : List Int) (stop : Bool) : List Int :=
  h2DataAcc sid payload stop 0

/-- The octets of the data frames from `p` to `stop`, a truncated one left out; `none` when the
fuel is out. -/
def h2CountData (buf : List Int) : Nat → Int → Int → Option Int
  | 0, _, _ => none
  | fuel + 1, p, stop =>
    if p + 9 > stop then some 0
    else
      let h := h2FrameHdr buf p
      let rend := p + 8 + h.length
      if rend > stop then some 0
      else
        let isdata : Bool := h.stype = h2TData
        let here := h2Pick isdata h.length 0
        (h2CountData buf fuel (rend + 1) stop).map (here + ·)

/-! ## What a reader takes -/

structure Frame where
  stype : Int
  flags : Int
  sid : Int
  payload : List Int
  deriving DecidableEq

/-- A frame as it is written. -/
def Frame.wire (f : Frame) : List Int := h2Frame f.stype f.flags f.sid f.payload

/-- The frames from `pos` to the end, one header and its payload after another. -/
def readFrames (b : List Int) (pos : Nat) : Option (List Frame) :=
  if pos ≥ b.length then some []
  else
    let h := h2FrameHdr b pos
    if h.bad then none
    else if h.length < 0 ∨ pos + 9 + h.length > b.length then none
    else
      (readFrames b (pos + 9 + h.length.toNat)).map
        (⟨h.stype, h.flags, h.sid, (b.drop (pos + 9)).take h.length.toNat⟩ :: ·)
termination_by b.length - pos

/-- A frame whose fields fit the header. -/
structure Frame.Fits (f : Frame) : Prop where
  length : f.payload.length < 16777216
  sid : 0 ≤ f.sid ∧ f.sid < 2147483648

/-! ## Copying -/

theorem h2CatAll_eq (b : List Int) (i : Nat) (acc : List Int) :
    h2CatAll b (b.length - 1) i acc = acc ++ b.drop i := by
  induction hd : b.length - i generalizing i acc with
  | zero =>
    rw [h2CatAll, if_pos (by omega), List.drop_eq_nil_of_le (by omega), List.append_nil]
  | succ d ih =>
    have hlt : i < b.length := by omega
    rw [h2CatAll, if_neg (by omega), ih (i + 1) _ (by omega), List.getD_eq_getElem?_getD,
      List.getElem?_eq_getElem hlt, List.drop_eq_getElem_cons hlt, List.append_assoc]
    rfl

theorem h2Cat_eq (a b : List Int) : h2Cat a b = a ++ b := h2CatAll_eq b 0 a

theorem h2Frame_eq (stype flags sid : Int) (payload : List Int) :
    h2Frame stype flags sid payload =
      h2FrameHdrEnc payload.length stype flags sid ++ payload :=
  h2CatAll_eq payload 0 _

theorem sliceSeed_eq (b : List Int) {start count : Nat} (h : start + count ≤ b.length)
    (acc : List Int) : sliceSeed b start count acc = acc ++ (b.drop start).take count := by
  induction count generalizing start acc with
  | zero =>
    rw [sliceSeed, if_pos (by omega), List.take_zero, List.append_nil]
  | succ count ih =>
    have hlt : start < b.length := by omega
    rw [sliceSeed, if_neg (by omega), show ((count + 1 : Nat) : Int) - 1 = count by omega,
      ih (by omega), List.getD_eq_getElem?_getD, List.getElem?_eq_getElem hlt,
      List.drop_eq_getElem_cons hlt, List.take_succ_cons, List.append_assoc]
    rfl

/-! ## One header -/

/-- The header written is the header read, wherever it stands. -/
theorem h2FrameHdr_enc (low rest : List Int) {length sid : Int} (stype flags : Int)
    (hlen : 0 ≤ length) (hsid : 0 ≤ sid ∧ sid < 2147483648) :
    h2FrameHdr (low ++ (h2FrameHdrEnc length stype flags sid ++ rest)) low.length =
      ⟨length, stype, flags, sid, false⟩ := by
  have hget : ∀ k, (low ++ (h2FrameHdrEnc length stype flags sid ++ rest)).getD (low.length + k) 0 =
      (h2FrameHdrEnc length stype flags sid ++ rest).getD k 0 := by
    intro k
    rw [List.getD_eq_getElem?_getD, List.getD_eq_getElem?_getD,
      List.getElem?_append_right (Nat.le_add_right _ _), Nat.add_sub_cancel_left]
  have hroom : ¬ ((low.length : Int) < 0 ∨ (low.length : Int) + 8 >
      ((low ++ (h2FrameHdrEnc length stype flags sid ++ rest)).length : Int) - 1) := by
    simp [h2FrameHdrEnc]
    omega
  have hget0 := hget 0
  rw [Nat.add_zero] at hget0
  unfold h2FrameHdr h2U24
  simp only [if_neg hroom, Int.toNat_natCast, hget, hget0]
  simp only [h2FrameHdrEnc, List.cons_append, List.getD_cons_zero, List.getD_cons_succ]
  obtain ⟨hs0, hs1⟩ := hsid
  simp only [Int.tdiv_eq_ediv_of_nonneg hlen, Int.tdiv_eq_ediv_of_nonneg hs0]
  have h1 : 0 ≤ length - length / 65536 * 65536 := by omega
  have h2 : 0 ≤ sid - sid / 16777216 * 16777216 := by omega
  have h3 : 0 ≤ sid / 16777216 := by omega
  simp only [Int.tdiv_eq_ediv_of_nonneg h1, Int.tdiv_eq_ediv_of_nonneg h2,
    Int.tdiv_eq_ediv_of_nonneg h3]
  have h4 : 0 ≤ sid - sid / 16777216 * 16777216 -
      (sid - sid / 16777216 * 16777216) / 65536 * 65536 := by omega
  simp only [Int.tdiv_eq_ediv_of_nonneg h4, H2FrameHdr.mk.injEq, true_and, and_true]
  omega

/-! ## Reading what was written -/

theorem length_enc (length stype flags sid : Int) : (h2FrameHdrEnc length stype flags sid).length = 9 :=
  rfl

theorem Frame.wire_eq (f : Frame) :
    f.wire = h2FrameHdrEnc f.payload.length f.stype f.flags f.sid ++ f.payload :=
  h2Frame_eq ..

theorem Frame.length_wire (f : Frame) : f.wire.length = 9 + f.payload.length := by
  rw [f.wire_eq, List.length_append, length_enc]

/-- The header of a frame that stands at `low`. -/
theorem Frame.Fits.header {f : Frame} (h : f.Fits) (low rest : List Int) :
    h2FrameHdr (low ++ (f.wire ++ rest)) low.length =
      ⟨f.payload.length, f.stype, f.flags, f.sid, false⟩ := by
  rw [f.wire_eq, List.append_assoc]
  exact h2FrameHdr_enc low (f.payload ++ rest) f.stype f.flags (Int.natCast_nonneg _) h.sid

/-- Frames written one after another are read as they are. -/
theorem readFrames_wire {fs : List Frame} (h : ∀ f ∈ fs, f.Fits) (low : List Int) :
    readFrames (low ++ fs.flatMap Frame.wire) low.length = some fs := by
  induction fs generalizing low with
  | nil =>
    rw [readFrames, List.flatMap_nil, List.append_nil, if_pos (Nat.le_refl _)]
  | cons f fs ih =>
    have hf := h f List.mem_cons_self
    have hhdr := hf.header low (fs.flatMap Frame.wire)
    have hlen := f.length_wire
    have htotal : (low ++ (f.wire ++ fs.flatMap Frame.wire)).length =
        low.length + (9 + f.payload.length + (fs.flatMap Frame.wire).length) := by
      rw [List.length_append, List.length_append, hlen]
    have hpay : ((low ++ (f.wire ++ fs.flatMap Frame.wire)).drop (low.length + 9)).take
        f.payload.length = f.payload := by
      rw [← List.drop_drop, List.drop_left, f.wire_eq, List.append_assoc,
        ← length_enc f.payload.length f.stype f.flags f.sid, List.drop_left, List.take_left]
    rw [List.flatMap_cons, readFrames, if_neg (by omega)]
    simp only [hhdr, Int.toNat_natCast, hpay, Bool.false_eq_true, if_false]
    rw [if_neg (by omega)]
    have hrest := ih (fun g hg => h g (List.mem_cons_of_mem f hg)) (low ++ f.wire)
    rw [List.append_assoc, List.length_append, hlen, ← Nat.add_assoc] at hrest
    rw [hrest]
    rfl

/-- The count is of the data frames' octets. -/
theorem h2CountData_wire {fs : List Frame} (h : ∀ f ∈ fs, f.Fits) (low : List Int) {fuel : Nat}
    (hfuel : fs.length < fuel) :
    h2CountData (low ++ fs.flatMap Frame.wire) fuel low.length
        ((low ++ fs.flatMap Frame.wire).length - 1) =
      some ((fs.map fun f => if f.stype = h2TData then (f.payload.length : Int) else 0).sum) := by
  induction fs generalizing low fuel with
  | nil =>
    cases fuel with
    | zero => exact absurd hfuel (Nat.not_lt_zero _)
    | succ fuel =>
      rw [h2CountData, List.flatMap_nil, List.append_nil, if_pos (by omega)]
      rfl
  | cons f fs ih =>
    cases fuel with
    | zero => exact absurd hfuel (Nat.not_lt_zero _)
    | succ fuel =>
      have hf := h f List.mem_cons_self
      have hhdr := hf.header low (fs.flatMap Frame.wire)
      have hlen := f.length_wire
      have htotal : (low ++ (f.wire ++ fs.flatMap Frame.wire)).length =
          low.length + (9 + f.payload.length + (fs.flatMap Frame.wire).length) := by
        rw [List.length_append, List.length_append, hlen]
      have hwidth : (low ++ f.wire).length = low.length + (9 + f.payload.length) := by
        rw [List.length_append, hlen]
      have hrest := @ih (fun g hg => h g (List.mem_cons_of_mem f hg)) (low ++ f.wire) fuel
        (by simpa using hfuel)
      rw [List.append_assoc, hwidth] at hrest
      rw [List.flatMap_cons, h2CountData, List.map_cons, List.sum_cons]
      by_cases hempty : (low.length : Int) + 9 >
          ((low ++ (f.wire ++ fs.flatMap Frame.wire)).length : Int) - 1
      · -- the last frame, without a payload
        have hnone : f.payload.length = 0 ∧ (fs.flatMap Frame.wire).length = 0 := by omega
        have hfs : fs = [] := by
          cases fs with
          | nil => rfl
          | cons g fs =>
            have hg := g.length_wire
            rw [List.flatMap_cons, List.length_append] at hnone
            omega
        rw [if_pos hempty, hfs, hnone.1]
        simp
      · rw [if_neg hempty]
        simp only [hhdr]
        rw [if_neg (by omega), show (low.length : Int) + 8 + f.payload.length + 1 =
          ((low.length + (9 + f.payload.length) : Nat) : Int) by omega, hrest]
        simp [h2Pick]

/-! ## Pieces -/

/-- The frames of `l`, each made of its piece and whether it is the first and the last. -/
def cut (mk : Bool → Bool → List Int → Frame) (first : Bool) (l : List Int) : List Frame :=
  if _h : l.length ≤ 16384 then [mk first true l]
  else mk first false (l.take 16384) :: cut mk false (l.drop 16384)
termination_by l.length
decreasing_by
  rw [List.length_drop]
  omega

section Cut

variable {mk : Bool → Bool → List Int → Frame}

theorem cut_ne_nil (first : Bool) (l : List Int) : cut mk first l ≠ [] := by
  rw [cut]
  split_ifs
  · exact List.cons_ne_nil _ _
  · exact List.cons_ne_nil _ _

theorem cut_payload (hmk : ∀ first last p, (mk first last p).payload = p) (first : Bool)
    (l : List Int) : (cut mk first l).flatMap Frame.payload = l := by
  induction hn : l.length using Nat.strongRecOn generalizing first l with
  | ind n ih =>
    rw [cut]
    split_ifs with hfits
    · rw [List.flatMap_singleton, hmk]
    · rw [List.flatMap_cons, hmk, ih _ (by rw [List.length_drop]; omega) false _ rfl,
        List.take_append_drop]

/-- The frame at an index: the first where it is 0, the last at the end alone. -/
theorem cut_get (first : Bool) (l : List Int) (i : Nat) (hi : i < (cut mk first l).length) :
    ∃ p : List Int, p.length ≤ 16384 ∧
      (cut mk first l)[i] = mk (first && i == 0) (i + 1 == (cut mk first l).length) p := by
  induction hn : l.length using Nat.strongRecOn generalizing first l i with
  | ind n ih =>
    by_cases hfits : l.length ≤ 16384
    · have hcut : cut mk first l = [mk first true l] := by rw [cut, dif_pos hfits]
      simp only [hcut, List.length_singleton] at hi ⊢
      have hzero : i = 0 := by omega
      subst hzero
      exact ⟨l, hfits, by simp⟩
    · have hcut : cut mk first l =
          mk first false (l.take 16384) :: cut mk false (l.drop 16384) := by
        rw [cut, dif_neg hfits]
      have hpos := List.length_pos_iff.2 (show cut mk false (l.drop 16384) ≠ [] from cut_ne_nil false _)
      simp only [hcut, List.length_cons] at hi ⊢
      cases i with
      | zero =>
        refine ⟨l.take 16384, List.length_take_le _ _, ?_⟩
        have hlast : (0 + 1 == (cut mk false (l.drop 16384)).length + 1) = false := by
          rw [beq_eq_false_iff_ne]
          omega
        rw [hlast]
        simp
      | succ i =>
        obtain ⟨p, hp, hget⟩ := ih _ (by rw [List.length_drop]; omega) false (l.drop 16384) i
          (by omega) rfl
        refine ⟨p, hp, ?_⟩
        rw [List.getElem_cons_succ, hget]
        simp

/-- Where a piece of `l` ends: the code's test is whether all that is left fits. -/
theorem fin_iff {l : List Int} {i : Nat} (hi : i ≤ l.length) :
    i + pieceLength l.length i - 1 ≥ (l.length : Int) - 1 ↔ (l.drop i).length ≤ 16384 := by
  rw [List.length_drop]
  unfold pieceLength h2Pick
  by_cases hfits : (l.length : Int) - i ≤ 16384
  · rw [decide_eq_true hfits, if_pos rfl]
    omega
  · rw [decide_eq_false hfits, if_neg Bool.false_ne_true]
    omega

theorem piece_eq {l : List Int} {i : Nat} (hi : i ≤ l.length) :
    sliceSeed l i (pieceLength l.length i) [] = (l.drop i).take 16384 := by
  have hnat : pieceLength l.length i = ((min (l.length - i) 16384 : Nat) : Int) := by
    unfold pieceLength h2Pick
    by_cases hfits : (l.length : Int) - i ≤ 16384
    · rw [decide_eq_true hfits, if_pos rfl]
      omega
    · rw [decide_eq_false hfits, if_neg Bool.false_ne_true]
      omega
  rw [hnat, sliceSeed_eq l (by omega), List.nil_append]
  rcases Nat.le_total (l.length - i) 16384 with hle | hle
  · rw [Nat.min_eq_left hle, List.take_of_length_le (by rw [List.length_drop]),
      List.take_of_length_le (by rw [List.length_drop]; exact hle)]
  · rw [Nat.min_eq_right hle]

end Cut

/-- A frame of a header block. -/
def headerFrame (sid extraFlags : Int) (first last : Bool) (p : List Int) : Frame :=
  ⟨h2Pick first h2THeaders h2TContinuation, h2Pick first extraFlags 0 + h2Pick last 4 0, sid, p⟩

/-- A frame of a body. -/
def dataFrame (sid : Int) (stop _first last : Bool) (p : List Int) : Frame :=
  ⟨h2TData, h2Pick (last && stop) 1 0, sid, p⟩

theorem h2HcChunk_eq (sid extraFlags : Int) (blk : List Int) {i : Nat} (hi : i ≤ blk.length)
    (first : Bool) : h2HcChunk sid extraFlags blk i first =
      (cut (headerFrame sid extraFlags) first (blk.drop i)).flatMap Frame.wire := by
  induction hn : blk.length - i using Nat.strongRecOn generalizing i first with
  | ind n ih =>
    have hfin := fin_iff hi
    rw [h2HcChunk, cut, piece_eq hi]
    by_cases hlast : i + pieceLength blk.length i - 1 ≥ (blk.length : Int) - 1
    · have hfits := hfin.1 hlast
      rw [dif_pos hlast, dif_pos hfits, List.flatMap_singleton, List.take_of_length_le hfits]
      simp only [decide_eq_true hlast]
      rfl
    · have hlong := mt hfin.2 hlast
      obtain ⟨htake, hmore⟩ := pieceLength_of_more hlast
      rw [dif_neg hlast, dif_neg hlong, List.flatMap_cons, h2Cat_eq]
      simp only [decide_eq_false hlast]
      simp only [htake]
      rw [show ((i : Int) + 16384 - 1 + 1).toNat = i + 16384 by omega,
        ih (blk.length - (i + 16384)) (by omega) (by omega) false rfl, List.drop_drop]
      rfl

theorem h2DataAcc_eq (sid : Int) (payload : List Int) (stop first : Bool) {i : Nat}
    (hi : i ≤ payload.length) : h2DataAcc sid payload stop i =
      (cut (dataFrame sid stop) first (payload.drop i)).flatMap Frame.wire := by
  induction hn : payload.length - i using Nat.strongRecOn generalizing i first with
  | ind n ih =>
    have hfin := fin_iff hi
    rw [h2DataAcc, cut, piece_eq hi]
    by_cases hlast : i + pieceLength payload.length i - 1 ≥ (payload.length : Int) - 1
    · have hfits := hfin.1 hlast
      rw [dif_pos hlast, dif_pos hfits, List.flatMap_singleton, List.take_of_length_le hfits]
      simp only [decide_eq_true hlast]
      rfl
    · have hlong := mt hfin.2 hlast
      obtain ⟨htake, hmore⟩ := pieceLength_of_more hlast
      rw [dif_neg hlast, dif_neg hlong, List.flatMap_cons, h2Cat_eq]
      simp only [decide_eq_false hlast]
      simp only [htake]
      rw [show ((i : Int) + 16384 - 1 + 1).toNat = i + 16384 by omega,
        ih (payload.length - (i + 16384)) (by omega) false (by omega) rfl, List.drop_drop]
      rfl

/-! ## A block and a body -/

/-- A stream's number, 31 bits. -/
def StreamId := {s : Int // 0 ≤ s ∧ s < 2147483648}

/-- Flags for the first header frame: an octet without END_HEADERS, which the writer adds. -/
def ExtraFlags := {f : Int // 0 ≤ f ∧ f < 256 ∧ f / 4 % 2 = 0}

def Frame.endHeaders (f : Frame) : Bool := f.flags / 4 % 2 = 1

def Frame.endStream (f : Frame) : Bool := f.flags % 2 = 1

/-- Frames of one stream, none too long, whose payloads joined are the octets. -/
structure Framed (sid : Int) (octets : List Int) (frames : List Frame) : Prop where
  ne : frames ≠ []
  joined : frames.flatMap Frame.payload = octets
  each : ∀ f ∈ frames, f.sid = sid ∧ f.payload.length ≤ 16384

/-- What a cut into frames of one stream is. -/
theorem cut_framed {mk : Bool → Bool → List Int → Frame} {sid : Int}
    (hmk : ∀ first last p, (mk first last p).payload = p ∧ (mk first last p).sid = sid)
    (octets : List Int) : Framed sid octets (cut mk true octets) where
  ne := cut_ne_nil true octets
  joined := cut_payload (fun first last p => (hmk first last p).1) true octets
  each := by
    intro f hf
    obtain ⟨i, hi, rfl⟩ := List.getElem_of_mem hf
    obtain ⟨p, hp, hget⟩ := cut_get true octets i hi
    rw [hget, (hmk _ _ p).1, (hmk _ _ p).2]
    exact ⟨rfl, hp⟩

theorem Framed.fits {sid : StreamId} {octets : List Int} {frames : List Frame}
    (h : Framed sid.1 octets frames) : ∀ f ∈ frames, f.Fits := by
  intro f hf
  obtain ⟨hsid, hlen⟩ := h.each f hf
  exact ⟨by omega, by rw [hsid]; exact sid.2⟩

/-- The frames of a header block. -/
theorem headers_framed (sid : StreamId) (extra : ExtraFlags) (blk : List Int) :
    ∃ frames, readFrames (h2HeadersContFrames sid.1 extra.1 blk) 0 = some frames ∧
      Framed sid.1 blk frames ∧ ∀ i (hi : i < frames.length),
        frames[i].stype = (if i = 0 then h2THeaders else h2TContinuation) ∧
        frames[i].flags = (if i = 0 then extra.1 else 0) + (if i + 1 = frames.length then 4 else 0) ∧
        (frames[i].endHeaders = true ↔ i + 1 = frames.length) := by
  have hframed : Framed sid.1 blk (cut (headerFrame sid.1 extra.1) true blk) :=
    @cut_framed (headerFrame sid.1 extra.1) sid.1 (fun _ _ _ => ⟨rfl, rfl⟩) blk
  refine ⟨cut (headerFrame sid.1 extra.1) true blk, ?_, hframed, ?_⟩
  · have hread := readFrames_wire hframed.fits []
    rw [h2HeadersContFrames, h2HcChunk_eq sid.1 extra.1 blk (Nat.zero_le _), List.drop_zero]
    exact hread
  · intro i hi
    obtain ⟨p, -, hget⟩ := cut_get true blk i hi
    obtain ⟨hpos, hbyte, hclear⟩ := extra.2
    rw [hget, headerFrame, Frame.endHeaders, h2Pick, h2Pick, h2Pick, Bool.true_and]
    by_cases hzero : i = 0 <;>
      by_cases hlast : i + 1 = (cut (headerFrame sid.1 extra.1) true blk).length
    all_goals
      simp only [beq_iff_eq, hzero, hlast, if_true, if_false, decide_eq_true_eq, true_and, iff_true,
        iff_false]
      omega

theorem sum_payload (fs : List Frame) :
    (fs.map fun f => (f.payload.length : Int)).sum = (fs.flatMap Frame.payload).length := by
  induction fs with
  | nil => rfl
  | cons f fs ih =>
    rw [List.map_cons, List.sum_cons, ih, List.flatMap_cons, List.length_append, Int.natCast_add]

/-- The frames of a body. -/
theorem data_framed (sid : StreamId) (payload : List Int) (stop : Bool) :
    ∃ frames, readFrames (h2DataFrames sid.1 payload stop) 0 = some frames ∧
      Framed sid.1 payload frames ∧ (∀ i (hi : i < frames.length),
        frames[i].stype = h2TData ∧
        (frames[i].endStream = true ↔ stop = true ∧ i + 1 = frames.length)) ∧
      ∀ fuel, frames.length < fuel →
        h2CountData (h2DataFrames sid.1 payload stop) fuel 0
          ((h2DataFrames sid.1 payload stop).length - 1) = some (payload.length : Int) := by
  have hframed : Framed sid.1 payload (cut (dataFrame sid.1 stop) true payload) :=
    @cut_framed (dataFrame sid.1 stop) sid.1 (fun _ _ _ => ⟨rfl, rfl⟩) payload
  have hwire : h2DataFrames sid.1 payload stop =
      (cut (dataFrame sid.1 stop) true payload).flatMap Frame.wire := by
    rw [h2DataFrames, h2DataAcc_eq sid.1 payload stop true (Nat.zero_le _), List.drop_zero]
  have hshape : ∀ i (hi : i < (cut (dataFrame sid.1 stop) true payload).length),
      (cut (dataFrame sid.1 stop) true payload)[i].stype = h2TData ∧
      ((cut (dataFrame sid.1 stop) true payload)[i].endStream = true ↔
        stop = true ∧ i + 1 = (cut (dataFrame sid.1 stop) true payload).length) := by
    intro i hi
    obtain ⟨p, -, hget⟩ := cut_get true payload i hi
    rw [hget, dataFrame, Frame.endStream, h2Pick]
    refine ⟨rfl, ?_⟩
    by_cases hlast : i + 1 = (cut (dataFrame sid.1 stop) true payload).length <;>
      cases stop <;> simp [hlast]
  refine ⟨cut (dataFrame sid.1 stop) true payload, ?_, hframed, hshape, ?_⟩
  · rw [hwire]
    exact readFrames_wire hframed.fits []
  · intro fuel hfuel
    have hcount := h2CountData_wire hframed.fits [] hfuel
    rw [List.nil_append] at hcount
    rw [hwire]
    refine hcount.trans ?_
    have hall : ∀ f ∈ cut (dataFrame sid.1 stop) true payload,
        (if f.stype = h2TData then (f.payload.length : Int) else 0) = f.payload.length := by
      intro f hf
      obtain ⟨i, hi, rfl⟩ := List.getElem_of_mem hf
      exact if_pos (hshape i hi).1
    rw [List.map_congr_left hall, sum_payload, hframed.joined]

/-- A header block and a body come back from their frames, and the integer reader returns exactly
the integers that stand, within 64 bits and six octets. -/
theorem framing_lossless (sid : StreamId) (extra : ExtraFlags) (octets : List Int) (stop : Bool) :
    (∃ frames, readFrames (h2HeadersContFrames sid.1 extra.1 octets) 0 = some frames ∧
      Framed sid.1 octets frames ∧ ∀ i (hi : i < frames.length),
        frames[i].stype = (if i = 0 then h2THeaders else h2TContinuation) ∧
        frames[i].flags = (if i = 0 then extra.1 else 0) + (if i + 1 = frames.length then 4 else 0) ∧
        (frames[i].endHeaders = true ↔ i + 1 = frames.length)) ∧
    (∃ frames, readFrames (h2DataFrames sid.1 octets stop) 0 = some frames ∧
      Framed sid.1 octets frames ∧ (∀ i (hi : i < frames.length),
        frames[i].stype = h2TData ∧
        (frames[i].endStream = true ↔ stop = true ∧ i + 1 = frames.length)) ∧
      ∀ fuel, frames.length < fuel →
        h2CountData (h2DataFrames sid.1 octets stop) fuel 0
          ((h2DataFrames sid.1 octets stop).length - 1) = some (octets.length : Int)) ∧
    (∀ (b : List UInt8) (pos mask : Nat), pos < b.length →
      let r := hpReadInt b pos (b.getD pos 0).toNat mask
      hpReadIntChecked b pos (b.getD pos 0).toNat mask = some r ∧ r.next ≤ pos + 6 ∧
        (r.bad = false → IntAt b pos mask r.val r.next) ∧
        ∀ v last, IntAt b pos mask v last → r = ⟨v, last, false⟩) ∧
    ∀ (b after : List UInt8) (pos mask v : Nat) (first : UInt8),
      b.drop pos = first :: intOctets mask v ++ after → first.toNat &&& mask = min v mask →
      v < mask + 2 ^ 35 →
      hpReadInt b pos first.toNat mask = ⟨v, pos + (intOctets mask v).length, false⟩ := by
  refine ⟨headers_framed sid extra octets, data_framed sid octets stop, ?_, ?_⟩
  · intro b pos mask hpos r
    exact ⟨hpReadIntChecked_eq b pos (b.getD pos 0).toNat_lt, next_hpReadInt_le b pos _ mask,
      intAt_of_hpReadInt hpos, fun v last hat => hpReadInt_eq hat⟩
  · intro b after pos mask v first hdrop hfirst hv
    have hread := hpReadInt_eq (intAt_encoded hdrop hfirst hv)
    rwa [getD_of_drop hdrop] at hread

end H2
