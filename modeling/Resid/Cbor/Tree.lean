import Resid.Cbor.Utf8

/-!
# Values as a tree

Small messages are read and written as trees: definite lengths, no tags, no floats.  The encoder
writes any 64-bit integer; the decoder takes an argument of eight bytes only below `2 ^ 62`.

    cvAt b room i = some (v, next) → v.Small                                    (cvAt_small)
    v.Small → v.depth < room → cvAt (cvEncode v here) room = some (v, just past it)  (cvAt_encode)
    v comes back from its encoding, whatever follows ↔ v.Small                  (round_trip_iff)

## Algorithm

`room` counts the levels of nesting that are left.  A count or a length is read first and then as
many parts, one after another.
-/

namespace Cbor

open Runtime ByteOrder

/-! ## Values -/

inductive Cv where
  | int (n : Int)
  | bytes (b : List UInt8)
  | text (s : Str)
  | arr (xs : List Cv)
  | map (ps : List (Cv × Cv))
  | bool (b : Bool)
  | null

/-! ## Written -/

def cvHead (major arg : Nat) : List UInt8 := cbHead major arg

def cvText (s : Str) : List UInt8 :=
  let b := cbStrBytes s
  cvHead 3 b.length ++ b

mutual

/-- The encoding of a value. -/
def cvEncode : Cv → List UInt8
  | .int n => if n ≥ 0 then cvHead 0 n.toNat else cvHead 1 (-1 - n).toNat
  | .bytes b => cvHead 2 b.length ++ b
  | .text s => cvText s
  | .arr xs => cvHead 4 xs.length ++ cvItems xs
  | .map ps => cvHead 5 ps.length ++ cvPairs ps
  | .bool b => if b then [245] else [244]
  | .null => [246]

def cvItems : List Cv → List UInt8
  | [] => []
  | x :: xs => cvEncode x ++ cvItems xs

def cvPairs : List (Cv × Cv) → List UInt8
  | [] => []
  | (k, v) :: ps => cvEncode k ++ cvEncode v ++ cvPairs ps

end

/-! ## Read -/

/-- The `n` bytes from `i` on as a number, most significant first. -/
def cvBe (b : List UInt8) : (i n acc : Nat) → Nat
  | _, 0, acc => acc
  | i, n + 1, acc => cvBe b (i + 1) n (FixedWidth.shlLow 64 acc 8 ||| (b.getD i 0).toNat)

/-- How many bytes the argument takes, 0 where it may not stand. -/
def cvWidth (ai : Nat) : Nat :=
  if ai = 24 then 1 else if ai = 25 then 2 else if ai = 26 then 4 else if ai = 27 then 8 else 0

/-- The argument of the head at `i`, and the position after it. -/
def cvArg (b : List UInt8) (i : Nat) : Option (Nat × Nat) :=
  if i ≥ b.length then none
  else
    let ai := (b.getD i 0).toNat &&& 31
    if ai < 24 then some (ai, i + 1)
    else
      let n := cvWidth ai
      if n = 0 ∨ i + 1 + n > b.length then none
      else if n = 8 ∧ (b.getD (i + 1) 0).toNat ≥ 64 then none
      else some (cvBe b (i + 1) n 0, i + 1 + n)

/-- `left` items one after another, each read by `item`. -/
def cvArr (item : Nat → Option (Cv × Nat)) : (i left : Nat) → (acc : List Cv) → Option (Cv × Nat)
  | i, 0, acc => some (.arr acc, i)
  | i, left + 1, acc => do
    let (x, next) ← item i
    cvArr item next left (acc ++ [x])

/-- `left` pairs one after another, key and value each read by `item`. -/
def cvMap (item : Nat → Option (Cv × Nat)) :
    (i left : Nat) → (acc : List (Cv × Cv)) → Option (Cv × Nat)
  | i, 0, acc => some (.map acc, i)
  | i, left + 1, acc => do
    let (k, mid) ← item i
    let (v, next) ← item mid
    cvMap item next left (acc ++ [(k, v)])

/-- The value at `i`, with `room` levels left, and where it ends. -/
def cvAt (b : List UInt8) : (room : Nat) → (i : Nat) → Option (Cv × Nat)
  | 0, _ => none
  | room + 1, i =>
    if i ≥ b.length then none
    else
      let x := (b.getD i 0).toNat
      let mt := x >>> 5
      if mt = 7 then
        if x = 244 ∨ x = 245 then some (.bool (x = 245), i + 1)
        else if x = 246 then some (.null, i + 1)
        else none
      else if mt = 6 then none
      else do
        let (a, next) ← cvArg b i
        if mt = 0 then some (.int a, next)
        else if mt = 1 then some (.int (-1 - a), next)
        else if mt = 2 ∨ mt = 3 then
          if next + a > b.length then none
          else if mt = 2 then some (.bytes ((b.drop next).take a), next + a)
          else
            match cbStrAt b next (next + a) "text".toList with
            | .ok s => some (.text s, next + a)
            | _ => none
        else if a > b.length then none
        else if mt = 4 then cvArr (cvAt b room) next a []
        else cvMap (cvAt b room) next a []

/-- The value encoded by all of `b`. -/
def cvDecode (b : List UInt8) : Option Cv :=
  match cvAt b 17 0 with
  | some (v, next) => if next = b.length then some v else none
  | none => none

/-- The value that starts at `i`, and where it ends. -/
def cvDecodePrefix (b : List UInt8) (i : Nat) : Option (Cv × Nat) := cvAt b 17 i

/-! ## Parts of a value -/

mutual

/-- The values without parts. -/
def Cv.leaves : Cv → List Cv
  | .arr xs => leavesItems xs
  | .map ps => leavesPairs ps
  | .int n => [.int n]
  | .bytes b => [.bytes b]
  | .text s => [.text s]
  | .bool b => [.bool b]
  | .null => [.null]

def leavesItems : List Cv → List Cv
  | [] => []
  | x :: xs => x.leaves ++ leavesItems xs

def leavesPairs : List (Cv × Cv) → List Cv
  | [] => []
  | (k, v) :: ps => k.leaves ++ v.leaves ++ leavesPairs ps

end

mutual

/-- How deep values are nested: a part stands one level below. -/
def Cv.depth : Cv → Nat
  | .arr xs => depthItems xs
  | .map ps => depthPairs ps
  | _ => 0

def depthItems : List Cv → Nat
  | [] => 0
  | x :: xs => max (x.depth + 1) (depthItems xs)

def depthPairs : List (Cv × Cv) → Nat
  | [] => 0
  | (k, v) :: ps => max (max (k.depth + 1) (v.depth + 1)) (depthPairs ps)

end

/-- An integer whose argument takes at most 62 bits. -/
def SmallLeaf : Cv → Prop
  | .int n => -4611686018427387904 ≤ n ∧ n < 4611686018427387904
  | _ => True

/-- A text holds no NUL. -/
def TextLeaf : Cv → Prop
  | .text s => ∀ c ∈ s, c ≠ Char.ofNat 0
  | _ => True

/-- Every integer of the value takes at most 62 bits. -/
def Cv.Small (v : Cv) : Prop := ∀ x ∈ v.leaves, SmallLeaf x

def Cv.Texts (v : Cv) : Prop := ∀ x ∈ v.leaves, TextLeaf x

/-! ## Arguments -/

/-- Both readers of an argument agree inside the input. -/
theorem cvBe_of_cbArgBytes {b : List UInt8} {i n acc x : Nat} (h : cbArgBytes b i n acc = some x) :
    cvBe b i n acc = x := by
  induction n generalizing i acc with
  | zero => exact Option.some.inj h
  | succ n ih =>
    obtain ⟨y, hy, hrest⟩ := Option.bind_eq_some_iff.1 h
    rw [cvBe, List.getD_eq_getElem?_getD, hy]
    exact ih hrest

theorem cvBe_eq {b as rest : List UInt8} {i : Nat} (h : b.drop i = as ++ rest)
    (h8 : as.length ≤ 8) :
    cvBe b i as.length 0 = value as.reverse := by
  have hpow : 256 ^ as.length ≤ 256 ^ 8 := Nat.pow_le_pow_right (by decide) h8
  have hread : cbArgBytes b i as.length 0 = some (0 * 256 ^ as.length + value as.reverse) :=
    cbArgBytes_eq h (by omega)
  rw [Nat.zero_mul, Nat.zero_add] at hread
  exact cvBe_of_cbArgBytes hread

/-- Eight bytes are below `2 ^ 62` by their first byte. -/
theorem value_lt_iff {a : UInt8} {as : List UInt8} (h : as.length = 7) :
    value (a :: as).reverse < 4611686018427387904 ↔ a.toNat < 64 := by
  have hlt := value_lt as.reverse
  rw [List.length_reverse, h] at hlt
  rw [value_reverse_cons, h]
  omega

theorem getD_of_drop {b rest : List UInt8} {i : Nat} {x : UInt8} (h : b.drop i = x :: rest) :
    b.getD i 0 = x := by
  rw [List.getD_eq_getElem?_getD, (getElem?_of_drop_cons h).1]
  rfl

/-- The argument of a head, when it is small enough. -/
theorem cvArg_head {b hd rest : List UInt8} {mt ai arg i : Nat} (h : Head mt ai arg hd)
    (hd' : b.drop i = hd ++ rest) (hsmall : arg < 4611686018427387904) :
    cvArg b i = some (arg, i + hd.length) := by
  have hroom := length_of_drop hd' (List.length_pos_iff.1 h.length_pos)
  cases h with
  | short hm hai =>
    have hx : (b.getD i 0).toNat &&& 31 = ai := by
      rw [getD_of_drop hd', toNat_headByte hm (by omega), headByte_info]
      omega
    rw [List.length_singleton] at hroom ⊢
    simp only [cvArg, if_neg (show ¬ i ≥ b.length by omega), hx, if_pos hai]
  | @wide as hm h24 h28 hlen =>
    have hx : (b.getD i 0).toNat &&& 31 = ai := by
      rw [getD_of_drop hd', toNat_headByte hm (by omega), headByte_info]
      omega
    have hn : cvWidth ai = as.length := by
      rw [hlen, cvWidth, cbArgWidth]
      split_ifs <;> omega
    have hw : 1 ≤ as.length ∧ as.length ≤ 8 := by
      rw [hlen, cbArgWidth]
      split_ifs <;> omega
    have hdrop : b.drop (i + 1) = as ++ rest := (getElem?_of_drop_cons hd').2
    rw [List.length_cons] at hroom ⊢
    have hfirst : ¬ (as.length = 8 ∧ (b.getD (i + 1) 0).toNat ≥ 64) := by
      rintro ⟨h8, hge⟩
      cases as with
      | nil => cases h8
      | cons a as =>
        rw [getD_of_drop hdrop] at hge
        have hlt := (value_lt_iff (show as.length = 7 by simpa using h8)).1 hsmall
        omega
    simp only [cvArg, if_neg (show ¬ i ≥ b.length by omega), hx,
      if_neg (show ¬ ai < 24 by omega), hn,
      if_neg (show ¬ (as.length = 0 ∨ i + 1 + as.length > b.length) by omega), if_neg hfirst,
      cvBe_eq hdrop hw.2]
    congr 2
    omega

/-- No argument of more than 62 bits is taken. -/
theorem lt_of_cvArg {b : List UInt8} {i a next : Nat} (h : cvArg b i = some (a, next)) :
    a < 4611686018427387904 := by
  unfold cvArg at h
  simp only at h
  have hinfo : (b.getD i 0).toNat &&& 31 < 32 := by
    rw [headByte_info]
    omega
  have hwidth : cvWidth ((b.getD i 0).toNat &&& 31) ≤ 4 ∨
      cvWidth ((b.getD i 0).toNat &&& 31) = 8 := by
    unfold cvWidth
    split_ifs <;> omega
  obtain ⟨n, hn⟩ : ∃ n, cvWidth ((b.getD i 0).toNat &&& 31) = n := ⟨_, rfl⟩
  rw [hn] at h hwidth
  split_ifs at h with hend hshort hroom hbig
  · obtain ⟨rfl, -⟩ := Prod.mk.inj (Option.some.inj h)
    omega
  · obtain ⟨rfl, -⟩ := Prod.mk.inj (Option.some.inj h)
    have hlen : ((b.drop (i + 1)).take n).length = n := by
      rw [List.length_take, List.length_drop]
      omega
    have hval := cvBe_eq (List.take_append_drop n (b.drop (i + 1))).symm (by omega)
    have hlt := value_lt ((b.drop (i + 1)).take n).reverse
    rw [List.length_reverse, hlen] at hlt
    rw [hlen] at hval
    rw [hval]
    rcases hwidth with h4 | rfl
    · have hpow : 256 ^ n ≤ 256 ^ 4 := Nat.pow_le_pow_right (by decide) h4
      omega
    · cases has : (b.drop (i + 1)).take 8 with
      | nil =>
        rw [has] at hlen
        cases hlen
      | cons x as =>
        rw [has, List.length_cons] at hlen
        rw [value_lt_iff (by omega)]
        have hdrop : b.drop (i + 1) = x :: (as ++ (b.drop (i + 1)).drop 8) := by
          rw [← List.cons_append, ← has, List.take_append_drop]
        rw [getD_of_drop hdrop] at hbig
        omega

/-! ## A value read back -/

theorem Head.first {b hd rest : List UInt8} {mt ai arg i : Nat} (h : Head mt ai arg hd)
    (hd' : b.drop i = hd ++ rest) : (b.getD i 0).toNat = 32 * mt + ai := by
  cases h with
  | short hm hai => rw [getD_of_drop hd', toNat_headByte hm (by omega)]
  | wide hm h24 h28 hlen => rw [getD_of_drop hd', toNat_headByte hm (by omega)]

/-- The value at a head, once its argument is read. -/
theorem cvAt_head {b hd rest : List UInt8} {mt ai arg i : Nat} (room : Nat) (h : Head mt ai arg hd)
    (hmt : mt < 6) (hd' : b.drop i = hd ++ rest) (hsmall : arg < 4611686018427387904) :
    cvAt b (room + 1) i =
      if mt = 0 then some (.int arg, i + hd.length)
      else if mt = 1 then some (.int (-1 - arg), i + hd.length)
      else if mt = 2 ∨ mt = 3 then
        if i + hd.length + arg > b.length then none
        else if mt = 2 then
          some (.bytes ((b.drop (i + hd.length)).take arg), i + hd.length + arg)
        else
          match cbStrAt b (i + hd.length) (i + hd.length + arg) "text".toList with
          | .ok s => some (.text s, i + hd.length + arg)
          | _ => none
      else if arg > b.length then none
      else if mt = 4 then cvArr (cvAt b room) (i + hd.length) arg []
      else cvMap (cvAt b room) (i + hd.length) arg [] := by
  have hroom := length_of_drop hd' (List.length_pos_iff.1 h.length_pos)
  have hpos := h.length_pos
  have hlt := h.info_lt
  have hmajor : (b.getD i 0).toNat >>> 5 = mt := by
    rw [h.first hd', headByte_major]
    omega
  rw [cvAt, if_neg (by omega)]
  simp only [hmajor, if_neg (show ¬ mt = 7 by omega), if_neg (show ¬ mt = 6 by omega),
    cvArg_head h hd' hsmall, CheckedInt.some_bind]

theorem cvHead_ne_nil (major arg : Nat) : cvHead major arg ≠ [] := by
  unfold cvHead cbHead cbHeadAt
  simp only
  split_ifs <;> exact List.cons_ne_nil _ _

theorem cvEncode_ne_nil (v : Cv) : cvEncode v ≠ [] := by
  cases v with
  | int n =>
    rw [cvEncode]
    split_ifs
    · exact cvHead_ne_nil _ _
    · exact cvHead_ne_nil _ _
  | bytes b => exact List.append_ne_nil_of_left_ne_nil (cvHead_ne_nil _ _) _
  | text s => exact List.append_ne_nil_of_left_ne_nil (cvHead_ne_nil _ _) _
  | arr xs =>
    rw [cvEncode]
    exact List.append_ne_nil_of_left_ne_nil (cvHead_ne_nil _ _) _
  | map ps =>
    rw [cvEncode]
    exact List.append_ne_nil_of_left_ne_nil (cvHead_ne_nil _ _) _
  | bool b => cases b <;> exact List.cons_ne_nil _ _
  | null => exact List.cons_ne_nil _ _

theorem length_le_cvItems (xs : List Cv) : xs.length ≤ (cvItems xs).length := by
  induction xs with
  | nil => exact Nat.le_refl 0
  | cons x xs ih =>
    have hpos := List.length_pos_iff.2 (cvEncode_ne_nil x)
    rw [cvItems, List.length_append, List.length_cons]
    omega

theorem length_le_cvPairs (ps : List (Cv × Cv)) : ps.length ≤ (cvPairs ps).length := by
  induction ps with
  | nil => exact Nat.le_refl 0
  | cons p ps ih =>
    obtain ⟨k, v⟩ := p
    have hpos := List.length_pos_iff.2 (cvEncode_ne_nil k)
    rw [cvPairs, List.length_append, List.length_append, List.length_cons]
    omega

/-- An integer of at most 62 bits is read back. -/
theorem cvAt_int {b rest : List UInt8} {n : Int} {i : Nat} (room : Nat) (hn : SmallLeaf (.int n))
    (h : b.drop i = cvEncode (.int n) ++ rest) :
    cvAt b (room + 1) i = some (.int n, i + (cvEncode (.int n)).length) := by
  obtain ⟨hlo, hhi⟩ := hn
  rw [cvEncode] at h ⊢
  by_cases h0 : n ≥ 0
  · rw [if_pos h0] at h ⊢
    obtain ⟨ai, hhead⟩ := head_cbHead 0 (show 0 < 8 by decide) (show n.toNat < 2 ^ 64 by omega)
    have hcast : (n.toNat : Int) = n := Int.toNat_of_nonneg h0
    rw [cvAt_head room hhead (by decide) h (by omega), if_pos rfl, hcast]
    rfl
  · rw [if_neg h0] at h ⊢
    obtain ⟨ai, hhead⟩ := head_cbHead 1 (show 1 < 8 by decide)
      (show (-1 - n).toNat < 2 ^ 64 by omega)
    have hcast : -1 - ((-1 - n).toNat : Int) = n := by omega
    rw [cvAt_head room hhead (by decide) h (by omega), if_neg (by decide), if_pos rfl, hcast]
    rfl

theorem drop_body {b body rest : List UInt8} {major n i : Nat}
    (h : b.drop i = cvHead major n ++ (body ++ rest)) :
    b.drop (i + (cvHead major n).length) = body ++ rest := by
  rw [← List.drop_drop, h, List.drop_left]

/-- The parts behind a head end inside the input, so there are few enough of them. -/
theorem parts_fit {b body rest : List UInt8} (hcap : b.length ≤ listCap) {major n i : Nat}
    (hn : n ≤ body.length)
    (h : b.drop i = cvHead major n ++ (body ++ rest)) :
    i + (cvHead major n).length + body.length ≤ b.length ∧ n < 4611686018427387904 := by
  rw [← List.append_assoc] at h
  have hroom := length_of_drop h (List.append_ne_nil_of_left_ne_nil (cvHead_ne_nil major n) body)
  rw [List.length_append] at hroom
  unfold listCap at hcap
  omega

/-- The value at a head that the encoder wrote. -/
theorem cvAt_parts {b body rest : List UInt8} (hcap : b.length ≤ listCap) {major n i : Nat}
    (room : Nat) (hm : 2 ≤ major) (hm5 : major < 6) (hn : n ≤ body.length)
    (h : b.drop i = cvHead major n ++ (body ++ rest)) :
    cvAt b (room + 1) i =
      if major = 2 ∨ major = 3 then
        if major = 2 then
          some (.bytes ((body ++ rest).take n), i + (cvHead major n).length + n)
        else
          match cbStrAt b (i + (cvHead major n).length) (i + (cvHead major n).length + n)
              "text".toList with
          | .ok s => some (.text s, i + (cvHead major n).length + n)
          | _ => none
      else if major = 4 then cvArr (cvAt b room) (i + (cvHead major n).length) n []
      else cvMap (cvAt b room) (i + (cvHead major n).length) n [] := by
  obtain ⟨hroom, hlt⟩ := parts_fit hcap hn h
  obtain ⟨ai, hhead⟩ : ∃ ai, Head major ai n (cvHead major n) :=
    head_cbHead major (by omega) (by omega)
  rw [cvAt_head room hhead hm5 h hlt, if_neg (by omega), if_neg (by omega)]
  by_cases hstr : major = 2 ∨ major = 3
  · rw [if_pos hstr, if_pos hstr, if_neg (by omega), drop_body h]
  · rw [if_neg hstr, if_neg hstr, if_neg (show ¬ n > b.length by omega)]

theorem cvAt_bytes {b bs rest : List UInt8} (hcap : b.length ≤ listCap) {i : Nat} (room : Nat)
    (h : b.drop i = cvEncode (.bytes bs) ++ rest) :
    cvAt b (room + 1) i = some (.bytes bs, i + (cvEncode (.bytes bs)).length) := by
  rw [cvEncode] at h ⊢
  rw [List.append_assoc] at h
  rw [cvAt_parts hcap room (by decide) (by decide) (Nat.le_refl _) h, if_pos (Or.inl rfl),
    if_pos rfl, List.take_left, List.length_append, Nat.add_assoc]

theorem cvAt_text {b rest : List UInt8} (hcap : b.length ≤ listCap) {s : Str} {i : Nat} (room : Nat)
    (hs : TextLeaf (.text s))
    (h : b.drop i = cvEncode (.text s) ++ rest) :
    cvAt b (room + 1) i = some (.text s, i + (cvEncode (.text s)).length) := by
  rw [cvEncode, cvText] at h ⊢
  rw [List.append_assoc] at h
  rw [cvAt_parts hcap room (by decide) (by decide) (Nat.le_refl _) h, if_pos (Or.inr rfl),
    if_neg (by decide), cbStrAt_bytes _ hs (drop_body h), List.length_append, Nat.add_assoc]

mutual

/-- A value whose integers are small is read back from its encoding, whatever follows. -/
theorem cvAt_encode {b : List UInt8} (hcap : b.length ≤ listCap) (v : Cv) {i room : Nat}
    {rest : List UInt8} (hsmall : v.Small) (htext : v.Texts) (hdepth : v.depth < room)
    (h : b.drop i = cvEncode v ++ rest) :
    cvAt b room i = some (v, i + (cvEncode v).length) := by
  obtain ⟨room, rfl⟩ := Nat.exists_eq_succ_of_ne_zero (show room ≠ 0 by omega)
  cases v with
  | int n => exact cvAt_int room (hsmall _ List.mem_cons_self) h
  | bytes bs => exact cvAt_bytes hcap room h
  | text s => exact cvAt_text hcap room (htext _ List.mem_cons_self) h
  | arr xs =>
    rw [cvEncode] at h ⊢
    rw [List.append_assoc] at h
    have hparts := cvArr_items hcap xs [] hsmall htext (Nat.le_of_lt_succ hdepth) (drop_body h)
    rw [cvAt_parts hcap room (by decide) (by decide) (length_le_cvItems xs) h, if_neg (by decide),
      if_pos rfl, hparts, List.nil_append, List.length_append, Nat.add_assoc]
  | map ps =>
    rw [cvEncode] at h ⊢
    rw [List.append_assoc] at h
    have hparts := cvMap_pairs hcap ps [] hsmall htext (Nat.le_of_lt_succ hdepth) (drop_body h)
    rw [cvAt_parts hcap room (by decide) (by decide) (length_le_cvPairs ps) h, if_neg (by decide),
      if_neg (by decide), hparts, List.nil_append, List.length_append, Nat.add_assoc]
  | bool x =>
    have hroom := length_of_drop h (cvEncode_ne_nil _)
    cases x with
    | false =>
      have hx : b.getD i 0 = 244 := getD_of_drop h
      rw [cvAt, if_neg (by rw [cvEncode] at hroom; simp at hroom; omega), hx]
      rfl
    | true =>
      have hx : b.getD i 0 = 245 := getD_of_drop h
      rw [cvAt, if_neg (by rw [cvEncode] at hroom; simp at hroom; omega), hx]
      rfl
  | null =>
    have hroom := length_of_drop h (cvEncode_ne_nil _)
    have hx : b.getD i 0 = 246 := getD_of_drop h
    rw [cvAt, if_neg (by rw [cvEncode] at hroom; simp at hroom; omega), hx]
    rfl

theorem cvArr_items {b : List UInt8} (hcap : b.length ≤ listCap) (xs : List Cv) {i room : Nat}
    {rest : List UInt8} (acc : List Cv)
    (hsmall : ∀ x ∈ leavesItems xs, SmallLeaf x) (htext : ∀ x ∈ leavesItems xs, TextLeaf x)
    (hdepth : depthItems xs ≤ room) (h : b.drop i = cvItems xs ++ rest) :
    cvArr (cvAt b room) i xs.length acc = some (.arr (acc ++ xs), i + (cvItems xs).length) := by
  cases xs with
  | nil =>
    rw [List.append_nil]
    rfl
  | cons x xs =>
    rw [leavesItems] at hsmall htext
    rw [depthItems] at hdepth
    rw [cvItems, List.append_assoc] at h
    have hone := cvAt_encode hcap x (fun y hy => hsmall y (List.mem_append_left _ hy))
      (fun y hy => htext y (List.mem_append_left _ hy)) (show x.depth < room by omega) h
    have hdrop : b.drop (i + (cvEncode x).length) = cvItems xs ++ rest := by
      rw [← List.drop_drop, h, List.drop_left]
    have hrest := cvArr_items hcap xs (acc ++ [x])
      (fun y hy => hsmall y (List.mem_append_right _ hy))
      (fun y hy => htext y (List.mem_append_right _ hy)) (show depthItems xs ≤ room by omega) hdrop
    rw [List.length_cons, cvArr, hone]
    show cvArr (cvAt b room) (i + (cvEncode x).length) xs.length (acc ++ [x]) = _
    rw [hrest, List.append_assoc, cvItems, List.length_append, Nat.add_assoc]
    rfl

theorem cvMap_pairs {b : List UInt8} (hcap : b.length ≤ listCap) (ps : List (Cv × Cv))
    {i room : Nat} {rest : List UInt8} (acc : List (Cv × Cv))
    (hsmall : ∀ x ∈ leavesPairs ps, SmallLeaf x) (htext : ∀ x ∈ leavesPairs ps, TextLeaf x)
    (hdepth : depthPairs ps ≤ room) (h : b.drop i = cvPairs ps ++ rest) :
    cvMap (cvAt b room) i ps.length acc = some (.map (acc ++ ps), i + (cvPairs ps).length) := by
  cases ps with
  | nil =>
    rw [List.append_nil]
    rfl
  | cons p ps =>
    obtain ⟨k, v⟩ := p
    rw [leavesPairs] at hsmall htext
    rw [depthPairs] at hdepth
    rw [cvPairs, List.append_assoc, List.append_assoc] at h
    have hkey := cvAt_encode hcap k
      (fun y hy => hsmall y (List.mem_append_left _ (List.mem_append_left _ hy)))
      (fun y hy => htext y (List.mem_append_left _ (List.mem_append_left _ hy)))
      (show k.depth < room by omega) h
    have hmid : b.drop (i + (cvEncode k).length) = cvEncode v ++ (cvPairs ps ++ rest) := by
      rw [← List.drop_drop, h, List.drop_left]
    have hval := cvAt_encode hcap v
      (fun y hy => hsmall y (List.mem_append_left _ (List.mem_append_right _ hy)))
      (fun y hy => htext y (List.mem_append_left _ (List.mem_append_right _ hy)))
      (show v.depth < room by omega) hmid
    have hdrop : b.drop (i + (cvEncode k).length + (cvEncode v).length) = cvPairs ps ++ rest := by
      rw [← List.drop_drop, hmid, List.drop_left]
    have hrest := cvMap_pairs hcap ps (acc ++ [(k, v)])
      (fun y hy => hsmall y (List.mem_append_right _ hy))
      (fun y hy => htext y (List.mem_append_right _ hy)) (show depthPairs ps ≤ room by omega) hdrop
    rw [List.length_cons, cvMap, hkey]
    show (do
      let (v, next) ← cvAt b room (i + (cvEncode k).length)
      cvMap (cvAt b room) next ps.length (acc ++ [(k, v)])) = _
    rw [hval]
    show cvMap (cvAt b room) (i + (cvEncode k).length + (cvEncode v).length) ps.length
      (acc ++ [(k, v)]) = _
    rw [hrest, List.append_assoc, cvPairs, List.length_append, List.length_append, Nat.add_assoc,
      Nat.add_assoc, Nat.add_assoc]
    rfl

end

/-! ## What is read -/

theorem leavesItems_append (xs ys : List Cv) :
    leavesItems (xs ++ ys) = leavesItems xs ++ leavesItems ys := by
  induction xs with
  | nil => rfl
  | cons x xs ih => rw [List.cons_append, leavesItems, leavesItems, ih, List.append_assoc]

theorem leavesPairs_append (ps qs : List (Cv × Cv)) :
    leavesPairs (ps ++ qs) = leavesPairs ps ++ leavesPairs qs := by
  induction ps with
  | nil => rfl
  | cons p ps ih =>
    obtain ⟨k, v⟩ := p
    rw [List.cons_append, leavesPairs, leavesPairs, ih]
    simp only [List.append_assoc]

/-- Items that are read one after another hold only small integers when each does. -/
theorem cvArr_small {item : Nat → Option (Cv × Nat)}
    (hitem : ∀ i v next, item i = some (v, next) → v.Small) {left i next : Nat} {acc : List Cv}
    {v : Cv} (hacc : ∀ x ∈ leavesItems acc, SmallLeaf x)
    (h : cvArr item i left acc = some (v, next)) : v.Small := by
  induction left generalizing i acc with
  | zero =>
    obtain ⟨rfl, -⟩ := Prod.mk.inj (Option.some.inj h)
    exact hacc
  | succ left ih =>
    obtain ⟨⟨x, mid⟩, hx, hrest⟩ := Option.bind_eq_some_iff.1 h
    refine ih ?_ hrest
    intro y hy
    rw [leavesItems_append] at hy
    rcases List.mem_append.1 hy with hy | hy
    · exact hacc y hy
    · rw [leavesItems, leavesItems, List.append_nil] at hy
      exact hitem i x mid hx y hy

theorem cvMap_small {item : Nat → Option (Cv × Nat)}
    (hitem : ∀ i v next, item i = some (v, next) → v.Small) {left i next : Nat}
    {acc : List (Cv × Cv)} {v : Cv} (hacc : ∀ x ∈ leavesPairs acc, SmallLeaf x)
    (h : cvMap item i left acc = some (v, next)) : v.Small := by
  induction left generalizing i acc with
  | zero =>
    obtain ⟨rfl, -⟩ := Prod.mk.inj (Option.some.inj h)
    exact hacc
  | succ left ih =>
    obtain ⟨⟨k, mid⟩, hk, h⟩ := Option.bind_eq_some_iff.1 h
    obtain ⟨⟨x, stop⟩, hx, hrest⟩ := Option.bind_eq_some_iff.1 h
    refine ih ?_ hrest
    intro y hy
    rw [leavesPairs_append] at hy
    rcases List.mem_append.1 hy with hy | hy
    · exact hacc y hy
    · rw [leavesPairs, leavesPairs, List.append_nil] at hy
      rcases List.mem_append.1 hy with hy | hy
      · exact hitem i k mid hk y hy
      · exact hitem mid x stop hx y hy

/-- A value that holds no other is read. -/
theorem small_of_leaf {v w : Cv} {next stop : Nat} (h : some (w, stop) = some (v, next))
    (hv : w.leaves = [w]) (hw : SmallLeaf w) : v.Small := by
  obtain ⟨rfl, -⟩ := Prod.mk.inj (Option.some.inj h)
  intro x hx
  rw [hv, List.mem_singleton] at hx
  rwa [hx]

/-- The decoder gives no integer of more than 62 bits. -/
theorem cvAt_small {b : List UInt8} {room i next : Nat} {v : Cv}
    (h : cvAt b room i = some (v, next)) : v.Small := by
  induction room generalizing i v next with
  | zero => cases h
  | succ room ih =>
    have hitem : ∀ i v next, cvAt b room i = some (v, next) → v.Small := by
      intro i v next
      exact ih
    rw [cvAt] at h
    simp only at h
    by_cases hend : i ≥ b.length
    · rw [if_pos hend] at h
      cases h
    rw [if_neg hend] at h
    by_cases h7 : (b.getD i 0).toNat >>> 5 = 7
    · rw [if_pos h7] at h
      split_ifs at h
      · exact small_of_leaf h rfl trivial
      · exact small_of_leaf h rfl trivial
    rw [if_neg h7] at h
    by_cases h6 : (b.getD i 0).toNat >>> 5 = 6
    · rw [if_pos h6] at h
      cases h
    rw [if_neg h6] at h
    obtain ⟨⟨a, mid⟩, harg, h⟩ := Option.bind_eq_some_iff.1 h
    have ha := lt_of_cvArg harg
    simp only at h
    split_ifs at h
    · exact small_of_leaf h rfl ⟨by omega, by omega⟩
    · exact small_of_leaf h rfl ⟨by omega, by omega⟩
    · exact small_of_leaf h rfl trivial
    · split at h
      · exact small_of_leaf h rfl trivial
      · cases h
    · exact cvArr_small hitem (fun x hx => absurd hx List.not_mem_nil) h
    · exact cvMap_small hitem (fun x hx => absurd hx List.not_mem_nil) h

/-! ## The round trip -/

/-- A value nested no deeper than the decoder goes comes back from its encoding, alone or before
other bytes, exactly when none of its integers takes more than 62 bits. -/
theorem round_trip_iff (v : Cv) (htext : v.Texts) (hdepth : v.depth ≤ 16)
    (hcap : (cvEncode v).length ≤ listCap) :
    (cvDecode (cvEncode v) = some v ∧ ∀ rest, (cvEncode v ++ rest).length ≤ listCap →
      cvDecodePrefix (cvEncode v ++ rest) 0 = some (v, (cvEncode v).length)) ↔ v.Small := by
  constructor
  · rintro ⟨-, hprefix⟩
    have hread := hprefix [] (by rwa [List.append_nil])
    exact cvAt_small hread
  · intro hsmall
    have hprefix : ∀ rest, (cvEncode v ++ rest).length ≤ listCap →
        cvDecodePrefix (cvEncode v ++ rest) 0 = some (v, (cvEncode v).length) := by
      intro rest hrest
      have hread : cvAt (cvEncode v ++ rest) 17 0 = some (v, 0 + (cvEncode v).length) :=
        cvAt_encode hrest v hsmall htext (Nat.lt_succ_of_le hdepth) rfl
      rwa [Nat.zero_add] at hread
    refine ⟨?_, hprefix⟩
    have hread := hprefix [] (by rwa [List.append_nil])
    rw [List.append_nil] at hread
    rw [cvDecode, show cvAt (cvEncode v) 17 0 = _ from hread]
    exact if_pos rfl

/-- The round trip of a map of a text and a list. -/
theorem round_trip_pair :
    cvDecode (cvEncode (.map [(.text ['k'], .arr [.int (-5), .null])])) =
      some (.map [(.text ['k'], .arr [.int (-5), .null])]) := by
  have hlen : (cvEncode (.map [(.text ['k'], .arr [.int (-5), .null])])).length ≤ listCap := by
    decide +kernel
  refine ((round_trip_iff _ ?_ (by decide) hlen).2 ?_).1
  · intro x hx
    simp only [Cv.leaves, leavesItems, leavesPairs, List.append_nil, List.cons_append,
      List.nil_append, List.mem_cons, List.not_mem_nil, or_false] at hx
    rcases hx with rfl | rfl | rfl
    · intro c hc
      rw [List.mem_singleton.1 hc]
      decide
    · trivial
    · trivial
  · intro x hx
    simp only [Cv.leaves, leavesItems, leavesPairs, List.append_nil, List.cons_append,
      List.nil_append, List.mem_cons, List.not_mem_nil, or_false] at hx
    rcases hx with rfl | rfl | rfl
    · trivial
    · exact ⟨by decide, by decide⟩
    · trivial

/-- The least integer of 63 bits is written and not read. -/
theorem int_63_lost : cvDecode (cvEncode (.int 4611686018427387904)) = none := by
  decide +kernel

end Cbor
