import Mathlib.Data.Int.Order.Basic
import Mathlib.Data.List.Lex
import Resid.Lib.Sorting

/-!
# Sorting a list

A list is flattened into an array of slots, which a merge sort orders from the bottom up: runs of
`width` slots are merged two by two into a second array, and the two arrays change places.

    mergeRun writes the merge of two runs, and nothing else                     (mergeRun_eq)
    mergePass writes what the pass over the lists gives                         (mergePass_eq)
    the array mergeSort returns holds the sorted slots                          (mergeSort_eq)

## Algorithm

An array is the list of its slots.  A comparator may change the rest of the state: it is asked in
the order of the source, and its state goes on from question to question.
-/

namespace Lists

open Merging

abbrev Word := BitVec 64

variable {σ α : Type}

/-! ## Comparing two slots -/

/-- What the words in slots refer to, a string as its bytes before the NUL, and the comparator
of a sort by behaviour. -/
structure Slots (σ : Type) where
  unboxWord : Word → Word
  unboxFloat : Word → Word
  text : Word → List UInt8
  text_ne : ∀ w, 0 ∉ text w
  limbs : Word → List Word
  call2 : σ → Word → Word → BitVec 32 × σ

inductive SortKind
  | word
  | float
  | str
  | thunk
  | wide
  | uwide
  | rawInt
  | rawFloat
deriving DecidableEq

def strcmp : List UInt8 → List UInt8 → Int
  | [], [] => 0
  | [], y :: _ => 0 - y.toNat
  | x :: _, [] => x.toNat
  | x :: a, y :: b => if x ≠ y then (x.toNat : Int) - y.toNat else strcmp a b

/-- From limb `i - 1` down. -/
def wideCmp (a b : List Word) (signed : Bool) : (i : Nat) → Int
  | 0 => 0
  | i + 1 =>
    let x := a.getD i 0
    let y := b.getD i 0
    if x = y then wideCmp a b signed i
    else if (if signed then x.slt y else x.ult y) then 0 - 1
    else 1

/-- The bits of a double as an order, the two zeros equal. -/
def floatKey (x : Word) : Int :=
  let mag : Int := (x &&& 0x7FFFFFFFFFFFFFFF#64).toNat
  if x.msb then -mag else mag

def isNan (x : Word) : Bool := (0x7FF0000000000000#64).ult (x &&& 0x7FFFFFFFFFFFFFFF#64)

def floatLt (x y : Word) : Bool := !isNan x && !isNan y && decide (floatKey x < floatKey y)

def cmpWord (x y : Word) : Int := if x.slt y then 0 - 1 else if y.slt x then 1 else 0

def cmpFloat (x y : Word) : Int := if floatLt x y then 0 - 1 else if floatLt y x then 1 else 0

def slotCmp (M : Slots σ) (k : SortKind) (s : σ) (a b : Word) : Int × σ :=
  match k with
  | .thunk => ((M.call2 s a b).1.toInt, (M.call2 s a b).2)
  | .rawInt => (cmpWord a b, s)
  | .rawFloat => (cmpFloat a b, s)
  | .wide => (wideCmp (M.limbs a) (M.limbs b) true (M.limbs a).length, s)
  | .uwide => (wideCmp (M.limbs a) (M.limbs b) false (M.limbs a).length, s)
  | .str => (strcmp (M.text a) (M.text b), s)
  | .float => (cmpFloat (M.unboxFloat a) (M.unboxFloat b), s)
  | .word => (cmpWord (M.unboxWord a) (M.unboxWord b), s)

/-! ## The merge sort -/

section Buffers

variable [Inhabited α] (cmp : σ → α → α → Int × σ)

def ld (b : List α) (i : Nat) : α := b.getD i default

/-- `n` slots of `src` from `i` on, copied to `o` on. -/
def mcopy (dst : List α) (o : Nat) (src : List α) (i n : Nat) : List α :=
  dst.take o ++ (src.drop i).take n ++ dst.drop (o + n)

def mergeRun (s : σ) (src dst : List α) (i mid j hi o : Nat) : List α × σ :=
  if i < mid ∧ j < hi then
    -- `≤` keeps the left run first.
    if (cmp s (ld src i) (ld src j)).1 ≤ 0 then
      mergeRun (cmp s (ld src i) (ld src j)).2 src (dst.set o (ld src i)) (i + 1) mid j hi (o + 1)
    else
      mergeRun (cmp s (ld src i) (ld src j)).2 src (dst.set o (ld src j)) i mid (j + 1) hi (o + 1)
  else
    let dst1 := if i < mid then mcopy dst o src i (mid - i) else dst
    (if j < hi then mcopy dst1 (o + mid - i) src j (hi - j) else dst1, s)
termination_by (mid - i) + (hi - j)

/-- The width is never 0. -/
def mergePass (s : σ) (src dst : List α) (n width lo : Nat) : List α × σ :=
  if lo ≥ n ∨ width = 0 then (dst, s)
  else
    let mid := min (lo + width) n
    let hi := min (lo + 2 * width) n
    let r := mergeRun cmp s src dst lo mid mid hi lo
    mergePass r.2 src r.1 n width (lo + 2 * width)
termination_by n - lo

/-- The two arrays of a sort. -/
inductive Side
  | items
  | scratch

def Side.other : Side → Side
  | .items => .scratch
  | .scratch => .items

structure Mem (α : Type) where
  items : List α
  scratch : List α

def Mem.buf (m : Mem α) : Side → List α
  | .items => m.items
  | .scratch => m.scratch

def Mem.store (m : Mem α) (b : List α) : Side → Mem α
  | .items => { m with items := b }
  | .scratch => { m with scratch := b }

/-- The memory after sorting the array `a`, and the array with the sorted slots. -/
def mergeSort (s : σ) (m : Mem α) (a : Side) (n width : Nat) : Mem α × Side × σ :=
  if width ≥ n ∨ width = 0 then (m, a, s)
  else
    let p := mergePass cmp s (m.buf a) (m.buf a.other) n width 0
    mergeSort p.2 (m.store p.1 a.other) a.other n (width * 2)
termination_by n - width

end Buffers

/-! ## Lists -/

/-- A list: its type word and its slots. -/
structure RtList where
  ty : Word
  words : List Word
deriving DecidableEq

def recWords (t : Word) : Nat := if (t - 16).ult 64 then (t - 16).toNat else 0

/-- `fresh` is what the second array holds when it is allocated. -/
def sortedCopy (M : Slots σ) (s : σ) (l : RtList) (k : SortKind) (fresh : List Word) :
    RtList × σ :=
  let n := l.words.length
  let r := mergeSort (slotCmp M k) s ⟨l.words, fresh⟩ .items n 1
  (⟨l.ty, (r.1.buf r.2.1).take n⟩, r.2.2)

/-! ## Lists of inline records -/

def recTag : Word := 1380303070#64 <<< 32

def recHdr (w : Nat) : Word := recTag ||| BitVec.ofNat 64 ((w - 1) * 16) ||| 1#64

/-- The headers of the records from `i` on, `left` of them, made not unique. -/
def recUnshare (w : Nat) : (left i : Nat) → List Word → List Word
  | 0, _, d => d
  | left + 1, i, d => recUnshare w left (i + 1) (d.set (i * w) (recHdr w - 1))

def recSnapshot (l : RtList) : List Word :=
  let w := recWords l.ty
  recUnshare w (l.words.length / w) 0 l.words

/-- A pointer to a record is the place of its fields. -/
def recPtrs (w n : Nat) : List Nat := (List.range n).map fun i => i * w + 1

def recFields (d : List Word) (w p : Nat) : List Word := (d.drop p).take (w - 1)

def recGather (d : List Word) (w : Nat) (ps : List Nat) : List Word :=
  ps.flatMap fun p => recHdr w :: recFields d w p

/-- The slots from `i` to `j` in reverse. -/
def revAt (a : List Nat) (i j : Nat) : List Nat :=
  if i ≥ j then a else revAt ((a.set i (ld a j)).set j (ld a i)) (i + 1) (j - 1)
termination_by j - i

/-- Asked with two pointers, a comparator reads the fields. -/
def recCmp (f : σ → List Word → List Word → BitVec 32 × σ) (d : List Word) (w : Nat) (s : σ)
    (p q : Nat) : Int × σ :=
  let c := f s (recFields d w p) (recFields d w q)
  (c.1.toInt, c.2)

/-- Sorted by the comparator, reversed without one. -/
def recReorder (s : σ) (l : RtList) (cmp : Option (σ → List Word → List Word → BitVec 32 × σ))
    (fresh : List Nat) : RtList × σ :=
  let w := recWords l.ty
  let n := l.words.length / w
  if n = 0 then (l, s)
  else
    let snap := recSnapshot l
    let ps := recPtrs w n
    match cmp with
    | some f =>
      let r := mergeSort (recCmp f snap w) s ⟨ps, fresh⟩ .items n 1
      (⟨l.ty, recGather snap w ((r.1.buf r.2.1).take n)⟩, r.2.2)
    | none => (⟨l.ty, recGather snap w (revAt ps 0 (n - 1))⟩, s)

/-! ## The arrays hold what the lists give -/

section Refine

variable [Inhabited α] {cmp : σ → α → α → Int × σ}

/-- A comparator's answer as whether the first slot may stand first. -/
def asks (cmp : σ → α → α → Int × σ) (s : σ) (a b : α) : Bool × σ :=
  (decide ((cmp s a b).1 ≤ 0), (cmp s a b).2)

/-- The slots from `i` to `k`. -/
def slice (b : List α) (i k : Nat) : List α := (b.drop i).take (k - i)

theorem slice_cons {b : List α} {i k : Nat} (h : i < k) (hk : k ≤ b.length) :
    slice b i k = ld b i :: slice b (i + 1) k := by
  have hi : i < b.length := by omega
  unfold slice ld
  have hget : b.getD i default = b[i] := by
    rw [List.getD_eq_getElem?_getD, List.getElem?_eq_getElem hi, Option.getD_some]
  rw [List.drop_eq_getElem_cons hi, show k - i = k - (i + 1) + 1 by omega, List.take_succ_cons,
    hget]

omit [Inhabited α] in
theorem slice_nil {b : List α} {i k : Nat} (h : k ≤ i) : slice b i k = [] := by
  rw [slice, Nat.sub_eq_zero_of_le h, List.take_zero]

omit [Inhabited α] in
theorem take_set_succ {b : List α} {o : Nat} (h : o < b.length) (x : α) :
    (b.set o x).take (o + 1) = b.take o ++ [x] := by
  rw [List.take_succ_eq_append_getElem (by rw [List.length_set]; exact h),
    List.take_set_of_le (Nat.le_refl o), List.getElem_set_self]

theorem mergeRun_eq (s : σ) (src dst : List α) (i mid j hi o : Nat) (hi1 : i ≤ mid) (hj1 : j ≤ hi)
    (hmid : mid ≤ src.length) (hhi : hi ≤ src.length)
    (hroom : o + (mid - i) + (hi - j) ≤ dst.length) :
    mergeRun cmp s src dst i mid j hi o =
      (dst.take o ++ (merge (asks cmp) s (slice src i mid) (slice src j hi)).1 ++
        dst.drop (o + (mid - i) + (hi - j)),
      (merge (asks cmp) s (slice src i mid) (slice src j hi)).2) := by
  fun_induction mergeRun cmp s src dst i mid j hi o with
  | case1 s dst i j o hgo hle ih =>
    have ho : o < dst.length := by omega
    rw [ih (by omega) hj1 (by rw [List.length_set]; omega), take_set_succ ho,
      List.drop_set_of_lt (by omega)]
    rw [slice_cons hgo.1 hmid, slice_cons hgo.2 hhi, merge, if_pos (by simpa [asks] using hle)]
    rw [show o + 1 + (mid - (i + 1)) + (hi - j) = o + (mid - i) + (hi - j) by omega]
    simp [asks]
  | case2 s dst i j o hgo hgt ih =>
    have ho : o < dst.length := by omega
    rw [ih hi1 (by omega) (by rw [List.length_set]; omega), take_set_succ ho,
      List.drop_set_of_lt (by omega)]
    rw [slice_cons hgo.1 hmid, slice_cons hgo.2 hhi, merge, if_neg (by simpa [asks] using hgt)]
    rw [show o + 1 + (mid - i) + (hi - (j + 1)) = o + (mid - i) + (hi - j) by omega]
    simp [asks]
  | case3 s dst i j o hstop dst1 =>
    by_cases him : i < mid
    · have hjh : hi = j := by omega
      have hnil := slice_nil (b := src) (i := j) (k := hi) (by omega)
      rw [hnil, slice_cons him hmid, merge, ← slice_cons him hmid, if_neg (by omega)]
      show (if i < mid then _ else _, s) = _
      rw [if_pos him, mcopy, slice, hjh, Nat.sub_self, Nat.add_zero]
    · have hmi : mid = i := by omega
      have hnil := slice_nil (b := src) (i := i) (k := mid) (by omega)
      rw [hnil, merge]
      by_cases hjh : j < hi
      · rw [if_pos hjh]
        show (mcopy (if i < mid then _ else _) _ _ _ _, s) = _
        rw [if_neg him, mcopy, slice, hmi, Nat.sub_self, Nat.add_zero, Nat.add_sub_cancel]
      · have hjn := slice_nil (b := src) (i := j) (k := hi) (by omega)
        rw [if_neg hjh, hjn]
        show ((if i < mid then _ else _), s) = _
        rw [if_neg him, show o + (mid - i) + (hi - j) = o by omega, List.append_nil,
          List.take_append_drop]

theorem mergePass_eq {n width : Nat} (hw : 0 < width) (s : σ) (src dst : List α) (lo : Nat)
    (hsrc : src.length = n) (hdst : dst.length = n) :
    mergePass cmp s src dst n width lo =
      (dst.take lo ++ (pass (asks cmp) width s (src.drop lo)).1,
        (pass (asks cmp) width s (src.drop lo)).2) := by
  fun_induction mergePass cmp s src dst n width lo with
  | case1 s dst lo hstop =>
    have hlo : n ≤ lo := hstop.resolve_right (by omega)
    have hnil : src.drop lo = [] := List.drop_eq_nil_of_le (by omega)
    rw [hnil, pass_nil, List.append_nil, List.take_of_length_le (by omega)]
  | case2 s dst lo hgo mid hi r ih =>
    have hlo : lo < n := by omega
    have hmid : mid = min (lo + width) n := rfl
    have hhi : hi = min (lo + 2 * width) n := rfl
    -- the two runs, as the lists have them
    have hleft : slice src lo mid = (src.drop lo).take width := by
      rw [slice, List.take_eq_take_iff, List.length_drop]
      omega
    have hright : slice src mid hi = ((src.drop lo).drop width).take width := by
      rw [slice, List.drop_drop]
      rcases Nat.lt_or_ge n (lo + width) with hshort | hlong
      · rw [List.drop_eq_nil_of_le (by omega), List.drop_eq_nil_of_le (by omega), List.take_nil,
          List.take_nil]
      · rw [show mid = lo + width by omega, List.take_eq_take_iff, List.length_drop]
        omega
    have hne : src.drop lo ≠ [] := by
      intro h
      have := List.drop_eq_nil_iff.1 h
      omega
    have hrun : r = _ := mergeRun_eq s src dst lo mid mid hi lo (by omega) (by omega) (by omega)
      (by omega) (by omega)
    rw [hleft, hright, show lo + (mid - lo) + (hi - mid) = hi by omega] at hrun
    have hdrop : (src.drop lo).drop (2 * width) = src.drop (lo + 2 * width) := List.drop_drop ..
    rw [pass_eq _ hw s hne, hdrop]
    generalize hm : merge (asks cmp) s ((src.drop lo).take width)
      (((src.drop lo).drop width).take width) = m at hrun ⊢
    have hlen : m.1.length = hi - lo := by
      rw [← hm, (merge_perm _ _ _ _).length_eq, List.length_append, List.length_take,
        List.length_take, List.length_drop, List.length_drop, List.length_drop]
      omega
    have hr1 : r.1.length = n := by
      rw [hrun, List.length_append, List.length_append, hlen, List.length_take, List.length_drop]
      omega
    have htake : r.1.take (lo + 2 * width) = dst.take lo ++ m.1 := by
      rw [hrun]
      rcases Nat.lt_or_ge n (lo + 2 * width) with hshort | hlong
      · rw [List.drop_eq_nil_of_le (by omega), List.append_nil, List.take_of_length_le]
        rw [List.length_append, hlen, List.length_take]
        omega
      · rw [List.take_left']
        rw [List.length_append, hlen, List.length_take]
        omega
    have hr2 : r.2 = m.2 := by rw [hrun]
    rw [ih hr1, htake, List.append_assoc, hr2]

theorem mergeSort_eq {n width : Nat} (hw : 0 < width) (s : σ) (m : Mem α) (a : Side)
    (hn : (m.buf a).length = n) (hother : (m.buf a.other).length = n) :
    (mergeSort cmp s m a n width).1.buf (mergeSort cmp s m a n width).2.1 =
        (sort (asks cmp) n width s (m.buf a)).1 ∧
      (mergeSort cmp s m a n width).2.2 = (sort (asks cmp) n width s (m.buf a)).2 := by
  fun_induction mergeSort cmp s m a n width with
  | case1 s m a width hstop =>
    rw [sort, dif_pos hstop]
    exact ⟨rfl, rfl⟩
  | case2 s m a width hgo p ih =>
    have hp : p = _ := mergePass_eq hw s (m.buf a) (m.buf a.other) 0 hn hother
    rw [List.take_zero, List.nil_append, List.drop_zero] at hp
    have hlen : p.1.length = n := by
      rw [hp]
      exact (pass_perm _ _ _ _).length_eq.trans hn
    have hbuf : (m.store p.1 a.other).buf a.other = p.1 := by
      cases a <;> rfl
    have hkept : (m.store p.1 a.other).buf a.other.other = m.buf a := by
      cases a <;> rfl
    obtain ⟨hres, hstate⟩ := ih (by omega) (by rw [hbuf, hlen]) (by rw [hkept, hn])
    rw [hbuf] at hres hstate
    rw [sort, dif_neg hgo, hres, hstate, hp]
    exact ⟨rfl, rfl⟩

end Refine

end Lists

/-!
## Sorting is stable

    sortedCopy returns a permutation, whatever the comparator answers
    answers by a total preorder → in order, equal elements as they came   (sortedCopy_stable)

For words, strings and wide integers the comparator is a total preorder (`totalPreorder_kind`),
for floats where none is a NaN.
-/

namespace Lists

open Merging Stable

variable {σ α β : Type}

/-- On the elements of `l`, not above is total and transitive. -/
def TotalPreorder (c : α → α → Int) (l : List α) : Prop :=
  TotalOn (fun a b => decide (c a b ≤ 0)) l

/-- Neither is above the other. -/
def same (c : α → α → Int) (a b : α) : Bool := decide (c a b ≤ 0) && decide (c b a ≤ 0)

/-- `out` is in order, and the elements that are the same as any one stand as in `l`. -/
structure StablySorted (c : α → α → Int) (l out : List α) : Prop where
  ordered : out.Pairwise fun a b => c a b ≤ 0
  stable : ∀ a ∈ l, out.filter (same c a) = l.filter (same c a)

/-- The comparator answers as `c` on the elements of `l`, whatever its state. -/
def Answers (cmp : σ → α → α → Int × σ) (c : α → α → Int) (l : List α) : Prop :=
  ∀ s, ∀ a ∈ l, ∀ b ∈ l, (cmp s a b).1 = c a b

theorem group_eq_filter {c : α → α → Int} {l out : List α} (h : TotalPreorder c l)
    (hout : out ⊆ l) {a : α} (ha : a ∈ l) :
    group (rankIn (fun a b => decide (c a b ≤ 0)) l)
      (rankIn (fun a b => decide (c a b ≤ 0)) l a) out = out.filter (same c a) := by
  unfold group
  refine List.filter_congr ?_
  intro b hb
  have hab := rank_le_iff h ha (hout hb)
  have hba := rank_le_iff h (hout hb) ha
  rw [Bool.eq_iff_iff, beq_iff_eq, same, Bool.and_eq_true, ← hab, ← hba]
  omega

theorem mergeSort_stable [Inhabited α] (cmp : σ → α → α → Int × σ) (s : σ) (l fresh : List α)
    (hfresh : fresh.length = l.length) :
    let r := mergeSort cmp s ⟨l, fresh⟩ .items l.length 1
    (r.1.buf r.2.1).Perm l ∧
      ∀ c, Answers cmp c l → TotalPreorder c l → StablySorted c l (r.1.buf r.2.1) := by
  intro r
  have hbuf : r.1.buf r.2.1 = (sort (asks cmp) l.length 1 s l).1 :=
    (mergeSort_eq (by decide) s ⟨l, fresh⟩ .items rfl hfresh).1
  have hperm := sort_perm (asks cmp) l.length 1 s l
  rw [hbuf]
  refine ⟨hperm, ?_⟩
  intro c hans htotal
  have hranks : Ranks (asks cmp) (rankIn (fun a b => decide (c a b ≤ 0)) l) l := by
    intro s a ha b hb
    rw [rank_le_iff htotal ha hb, asks, hans s a ha b hb]
  obtain ⟨hsorted, hgroups⟩ := sort_ranked (s := s) (by decide) rfl hranks (runs_one l)
  constructor
  · refine List.Pairwise.imp_of_mem ?_ hsorted
    intro a b ha hb hle
    exact of_decide_eq_true ((rank_le_iff htotal (hperm.subset ha) (hperm.subset hb)).1 hle)
  · intro a ha
    rw [← group_eq_filter htotal hperm.subset ha, hgroups, group_eq_filter htotal (fun _ h => h) ha]

theorem sortedCopy_stable (M : Slots σ) (s : σ) (l : RtList) (k : SortKind) (fresh : List Word)
    (hfresh : fresh.length = l.words.length) :
    (sortedCopy M s l k fresh).1.ty = l.ty ∧ (sortedCopy M s l k fresh).1.words.Perm l.words ∧
      ∀ c, Answers (slotCmp M k) c l.words → TotalPreorder c l.words →
        StablySorted c l.words (sortedCopy M s l k fresh).1.words := by
  have hsort := mergeSort_stable (slotCmp M k) s l.words fresh hfresh
  have hwords : (sortedCopy M s l k fresh).1.words =
      (mergeSort (slotCmp M k) s ⟨l.words, fresh⟩ .items l.words.length 1).1.buf
        (mergeSort (slotCmp M k) s ⟨l.words, fresh⟩ .items l.words.length 1).2.1 :=
    List.take_of_length_le (Nat.le_of_eq hsort.1.length_eq)
  rw [hwords]
  exact ⟨rfl, hsort⟩

/-! ## Kinds whose comparator is a total preorder -/

theorem totalPreorder_of_key {γ : Type} [LinearOrder γ] {c : α → α → Int} {l : List α}
    (key : α → γ) (h : ∀ a ∈ l, ∀ b ∈ l, c a b ≤ 0 ↔ key a ≤ key b) : TotalPreorder c l := by
  constructor
  · intro a ha b hb
    rw [decide_eq_true_iff, decide_eq_true_iff, h a ha b hb, h b hb a ha]
    exact le_total _ _
  · intro a ha b hb d hd
    rw [decide_eq_true_iff, decide_eq_true_iff, decide_eq_true_iff, h a ha b hb, h b hb d hd,
      h a ha d hd]
    exact le_trans

theorem cmpWord_le (x y : Word) : cmpWord x y ≤ 0 ↔ x.toInt ≤ y.toInt := by
  simp only [cmpWord, BitVec.slt, decide_eq_true_iff]
  split_ifs <;> omega

theorem cmpFloat_le {x y : Word} (hx : isNan x = false) (hy : isNan y = false) :
    cmpFloat x y ≤ 0 ↔ floatKey x ≤ floatKey y := by
  simp only [cmpFloat, floatLt, hx, hy, Bool.not_false, Bool.true_and, decide_eq_true_iff]
  split_ifs <;> omega

theorem strcmp_pos {a : List UInt8} (ha : 0 ∉ a) (b : List UInt8) :
    0 < strcmp a b ↔ b.map UInt8.toNat < a.map UInt8.toNat := by
  fun_induction strcmp a b with
  | case1 => simp
  | case2 y b =>
    rw [List.map_nil, List.map_cons]
    simp
  | case3 x a =>
    have hx : x.toNat ≠ 0 := by
      intro h0
      refine ha ?_
      rw [← UInt8.toNat_inj.1 (h0.trans UInt8.toNat_zero.symm)]
      exact List.mem_cons_self
    rw [List.map_nil, List.map_cons]
    simp only [List.nil_lt_cons, iff_true]
    omega
  | case4 x a y b hne =>
    have hval : x.toNat ≠ y.toNat := fun he => hne (UInt8.toNat_inj.1 he)
    rw [List.map_cons, List.map_cons, List.cons_lt_cons_iff]
    omega
  | case5 x a y b heq ih =>
    rw [not_not] at heq
    subst heq
    rw [List.map_cons, List.map_cons, List.cons_lt_cons_iff,
      ih fun h => ha (List.mem_cons_of_mem x h)]
    simp

/-- A limb as a number. -/
def limbVal (signed : Bool) (x : Word) : Int := if signed then x.toInt else x.toNat

theorem limbVal_lt (signed : Bool) (x y : Word) :
    (if signed = true then x.slt y else x.ult y) = true ↔ limbVal signed x < limbVal signed y := by
  cases signed with
  | true => simp [limbVal, BitVec.slt]
  | false => simp [limbVal, BitVec.ult]

theorem limbVal_inj {signed : Bool} {x y : Word} (h : limbVal signed x = limbVal signed y) :
    x = y := by
  cases signed with
  | true => exact BitVec.eq_of_toInt_eq h
  | false => exact BitVec.eq_of_toNat_eq (Int.ofNat.inj h)

theorem wideCmp_pos {a b : List Word} (signed : Bool) {i : Nat} (ha : i ≤ a.length)
    (hb : i ≤ b.length) :
    0 < wideCmp a b signed i ↔
      ((b.take i).map (limbVal signed)).reverse < ((a.take i).map (limbVal signed)).reverse := by
  induction i with
  | zero => simp [wideCmp]
  | succ i ih =>
    have hsplit : ∀ l : List Word, i + 1 ≤ l.length →
        ((l.take (i + 1)).map (limbVal signed)).reverse =
          limbVal signed (l.getD i 0) :: ((l.take i).map (limbVal signed)).reverse := by
      intro l hl
      rw [List.take_succ_eq_append_getElem hl, List.map_append, List.reverse_append,
        List.getD_eq_getElem?_getD, List.getElem?_eq_getElem hl]
      rfl
    rw [hsplit a ha, hsplit b hb, List.cons_lt_cons_iff, ← ih (by omega) (by omega)]
    simp only [wideCmp]
    by_cases heq : a.getD i 0 = b.getD i 0
    · rw [if_pos heq, heq]
      simp
    · have hval : limbVal signed (a.getD i 0) ≠ limbVal signed (b.getD i 0) :=
        fun h => heq (limbVal_inj h)
      rw [if_neg heq]
      by_cases hlt : (if signed = true then (a.getD i 0).slt (b.getD i 0)
          else (a.getD i 0).ult (b.getD i 0)) = true
      · rw [if_pos hlt]
        have := (limbVal_lt signed _ _).1 hlt
        omega
      · rw [if_neg hlt]
        have := mt (limbVal_lt signed _ _).2 hlt
        omega

/-- Words, strings, wide integers of one width and floats but NaN are in a total preorder. -/
theorem totalPreorder_kind (M : Slots σ) (k : SortKind) (s : σ) (l : List Word)
    (hk : k ≠ .thunk)
    (hfloat : k = .float → ∀ w ∈ l, isNan (M.unboxFloat w) = false)
    (hraw : k = .rawFloat → ∀ w ∈ l, isNan w = false)
    (hwide : k = .wide ∨ k = .uwide → ∃ n, ∀ w ∈ l, (M.limbs w).length = n) :
    Answers (slotCmp M k) (fun a b => (slotCmp M k s a b).1) l ∧
      TotalPreorder (fun a b => (slotCmp M k s a b).1) l := by
  have hlimbs : ∀ signed, (∃ n, ∀ w ∈ l, (M.limbs w).length = n) →
      TotalPreorder (fun a b => wideCmp (M.limbs a) (M.limbs b) signed (M.limbs a).length) l := by
    rintro signed ⟨n, hn⟩
    refine totalPreorder_of_key (fun w => ((M.limbs w).map (limbVal signed)).reverse) ?_
    intro a ha b hb
    have hpos := wideCmp_pos signed (a := M.limbs a) (b := M.limbs b) (Nat.le_refl _)
      (by rw [hn a ha, hn b hb])
    rw [List.take_length, List.take_of_length_le (by rw [hn a ha, hn b hb])] at hpos
    rw [← not_lt, hpos, not_lt]
  cases k with
  | thunk => exact absurd rfl hk
  | word =>
    exact ⟨fun _ _ _ _ _ => rfl, totalPreorder_of_key (fun w => (M.unboxWord w).toInt)
      fun a _ b _ => cmpWord_le _ _⟩
  | rawInt =>
    exact ⟨fun _ _ _ _ _ => rfl, totalPreorder_of_key BitVec.toInt fun a _ b _ => cmpWord_le a b⟩
  | float =>
    exact ⟨fun _ _ _ _ _ => rfl, totalPreorder_of_key (fun w => floatKey (M.unboxFloat w))
      fun a ha b hb => cmpFloat_le (hfloat rfl a ha) (hfloat rfl b hb)⟩
  | rawFloat =>
    exact ⟨fun _ _ _ _ _ => rfl, totalPreorder_of_key floatKey
      fun a ha b hb => cmpFloat_le (hraw rfl a ha) (hraw rfl b hb)⟩
  | str =>
    refine ⟨fun _ _ _ _ _ => rfl,
      totalPreorder_of_key (fun w => (M.text w).map UInt8.toNat) fun a _ b _ => ?_⟩
    rw [← not_lt, ← not_lt]
    exact not_congr (strcmp_pos (M.text_ne a) (M.text b))
  | wide => exact ⟨fun _ _ _ _ _ => rfl, hlimbs true (hwide (Or.inl rfl))⟩
  | uwide => exact ⟨fun _ _ _ _ _ => rfl, hlimbs false (hwide (Or.inr rfl))⟩

end Lists
