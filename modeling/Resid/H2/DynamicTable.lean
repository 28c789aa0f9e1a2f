import Mathlib.Data.Nat.Bitwise
import Resid.Lib.Fifo
import Resid.H2.Hpack

/-!
# The dynamic table

The table of the standard drops its oldest entries, 32 octets and the name and value each, whenever
they outgrow its maximum.  The decoder keeps every entry; one the standard's table still holds stands
at the same index.

    runBlocks blocks (Fifo.empty max) = some (fs, t) →
      decodeBlocks blocks [] = (fs as texts, t.all as texts)              (table_faithful)

## Algorithm

Fields are read as operations over octets, whatever their representation: integers in one octet or
more, strings plain or Huffman coded.  Each operation is then run on both tables.
-/

namespace H2

open Runtime Eviction

/-! ## The table of the standard -/

/-- A field as octets: its name and its value. -/
abbrev Field := List UInt8 × List UInt8

def entrySize (e : Field) : Nat := 32 + e.1.length + e.2.length

/-- A text of one-octet codepoints as octets. -/
def octetsOf (s : Str) : List UInt8 := s.map fun c => UInt8.ofNat c.toNat

/-- Entry `i` of the static table, from 1 on. -/
def staticField (i : Nat) : Option Field :=
  if i ≥ 1 ∧ i ≤ 61 then
    some (octetsOf (hpStaticName (hpStatic i)), octetsOf (hpStaticVal (hpStatic i)))
  else none

/-- The field at an index of both tables. -/
def fieldAt (t : Fifo entrySize) (i : Nat) : Option Field :=
  if i = 0 then none else if i ≤ 61 then staticField i else t.entries[i - 62]?

inductive NameRef where
  | entry (i : Nat)
  | new (s : List UInt8)

/-- What a field of a header block says. -/
inductive Op where
  | indexed (i : Nat)
  | literal (name : NameRef) (value : List UInt8) (indexing : Bool)
  | sizeUpdate (max : Nat)

def addField (t : Fifo entrySize) (e : Field) (indexing : Bool) : Option Field × Fifo entrySize :=
  (some e, if indexing then t.insert e else t)

/-- One operation on the table of the standard; nothing where that is an error. -/
def Op.run (t : Fifo entrySize) : Op → Option (Option Field × Fifo entrySize)
  | .indexed i => (fieldAt t i).map fun e => (some e, t)
  | .literal (.entry i) value indexing =>
    (fieldAt t i).map fun e => addField t (e.1, value) indexing
  | .literal (.new name) value indexing => some (addField t (name, value) indexing)
  | .sizeUpdate max => some (none, t.resize max)

/-- The operations of a block one after another, with the fields they give. -/
def runOps (t : Fifo entrySize) : List Op → Option (List Field × Fifo entrySize)
  | [] => some ([], t)
  | op :: ops => do
    let (f, t) ← op.run t
    let (fs, t) ← runOps t ops
    some (f.toList ++ fs, t)

/-! ## Representations -/

/-- Seven bits an octet, the lowest first. -/
def contValue : List UInt8 → Nat
  | [] => 0
  | x :: cs => x.toNat % 128 + 128 * contValue cs

/-- An integer with the prefix bits `mask` stands at `pos`, its last octet at `last`. -/
def IntAt (b : List UInt8) (pos mask v last : Nat) : Prop :=
  ∃ first after, b.drop pos = first :: after ∧
    (first.toNat &&& mask < mask ∧ v = first.toNat &&& mask ∧ last = pos ∨
      first.toNat &&& mask = mask ∧ ∃ more final rest, after = more ++ final :: rest ∧
        more.length ≤ 4 ∧ (∀ x ∈ more, 128 ≤ x.toNat) ∧ final.toNat < 128 ∧
        v = mask + contValue (more ++ [final]) ∧ last = pos + more.length + 1)

/-- A string stands at `pos`, plain or Huffman coded, and ends before `next`. -/
def StrAt (b : List UInt8) (pos : Nat) (s : List UInt8) (next : Nat) : Prop :=
  ∃ n last, IntAt b pos 127 n last ∧ last + 1 + n ≤ b.length ∧ next = last + 1 + n ∧
    ((b.getD pos 0).toNat < 128 ∧ s = (b.drop (last + 1)).take n ∨
      128 ≤ (b.getD pos 0).toNat ∧ ∃ k < 8,
        octetBits ((b.drop (last + 1)).take n) = codeWords s ++ List.replicate k true)

/-- The first octet of a literal, the prefix of its name and whether it is added to the table. -/
def LiteralHead (first mask : Nat) (indexing : Bool) : Prop :=
  64 ≤ first ∧ first < 128 ∧ mask = 63 ∧ indexing = true ∨
    first < 32 ∧ mask = 15 ∧ indexing = false

/-- An operation stands at `pos` and ends before `next`. -/
inductive OpAt (b : List UInt8) (pos : Nat) : Op → Nat → Prop
  | indexed {i last : Nat} (head : 128 ≤ (b.getD pos 0).toNat) (index : IntAt b pos 127 i last) :
      OpAt b pos (.indexed i) (last + 1)
  | entry {i last next mask : Nat} {v : List UInt8} {indexing : Bool}
      (head : LiteralHead (b.getD pos 0).toNat mask indexing) (index : IntAt b pos mask i last)
      (ne : i ≠ 0) (value : StrAt b (last + 1) v next) :
      OpAt b pos (.literal (.entry i) v indexing) next
  | new {last mid next mask : Nat} {n v : List UInt8} {indexing : Bool}
      (head : LiteralHead (b.getD pos 0).toNat mask indexing) (index : IntAt b pos mask 0 last)
      (name : StrAt b (last + 1) n mid) (value : StrAt b mid v next) :
      OpAt b pos (.literal (.new n) v indexing) next
  | sizeUpdate {max last : Nat} (head : 32 ≤ (b.getD pos 0).toNat ∧ (b.getD pos 0).toNat < 64)
      (size : IntAt b pos 31 max last) : OpAt b pos (.sizeUpdate max) (last + 1)

/-- Operations stand one after another from `pos` until past `stop`. -/
inductive OpsAt (b : List UInt8) (stop : Int) : Nat → List Op → Prop
  | nil {pos : Nat} (h : (pos : Int) > stop) : OpsAt b stop pos []
  | cons {pos next : Nat} {op : Op} {ops : List Op} (h : (pos : Int) ≤ stop) (head : OpAt b pos op next)
      (rest : OpsAt b stop next ops) : OpsAt b stop pos (op :: ops)

/-- A header block, the octets from `pos` to `stop`, and the operations it holds. -/
structure Block where
  bytes : List UInt8
  pos : Nat
  stop : Int
  ops : List Op
  holds : OpsAt bytes stop pos ops

def runBlocks (t : Fifo entrySize) : List Block → Option (List (List Field) × Fifo entrySize)
  | [] => some ([], t)
  | blk :: blks => do
    let (fs, t) ← runOps t blk.ops
    let (rest, t) ← runBlocks t blks
    some (fs :: rest, t)

/-- The blocks of a connection decoded in turn, the table handed from one to the next. -/
def decodeBlocks (dyn : List Str) : List Block → List HpBlock × List Str
  | [] => ([], dyn)
  | blk :: blks =>
    let r := hpDecodeBlock blk.bytes blk.pos blk.stop dyn []
    let (rs, dyn) := decodeBlocks r.dyn blks
    (r :: rs, dyn)

/-! ## Reading what stands there -/

/-- The high bit of an octet. -/
theorem and_128 {x : Nat} (h : x < 256) : x &&& 128 = 128 * (x / 128) := by
  have hbit := Nat.and_two_pow x 7
  rw [Nat.toNat_testBit, show 2 ^ 7 = 128 from rfl] at hbit
  omega

variable {x : UInt8} {after b : List UInt8} {i mask next pos : Nat} {e : Field}
  {t t' : Fifo entrySize} {dyn : List Str}

theorem getD_of_drop (h : b.drop pos = x :: after) : b.getD pos 0 = x := by
  have hget : (b.drop pos)[0]? = some x := by rw [h]; rfl
  rw [List.getElem?_drop, Nat.add_zero] at hget
  rw [List.getD_eq_getElem?_getD, hget]
  rfl

theorem drop_next (h : b.drop pos = x :: after) : b.drop (pos + 1) = after := by
  rw [← List.drop_drop, h]
  rfl

theorem lt_length_of_drop (h : b.drop pos = x :: after) : pos < b.length := by
  have hlen := congrArg List.length h
  rw [List.length_drop, List.length_cons] at hlen
  omega

theorem hpIntCont_eq {more rest : List UInt8} {final : UInt8} {acc m : Nat}
    (h : b.drop pos = more ++ final :: rest) (hm : m + 7 * more.length ≤ 28)
    (hmore : ∀ x ∈ more, 128 ≤ x.toNat) (hfinal : final.toNat < 128) : hpIntCont b pos acc m =
      ⟨acc + contValue (more ++ [final]) * 2 ^ m, pos + more.length, false⟩ := by
  induction more generalizing pos acc m with
  | nil =>
    have hlt := lt_length_of_drop h
    have hand := and_128 final.toNat_lt
    have hdiv : final.toNat / 128 = 0 := by omega
    have hmod : final.toNat % 128 = final.toNat := by omega
    rw [hpIntCont, if_neg (by omega)]
    simp only [getD_of_drop h, hand, hdiv, Nat.mul_zero, Nat.sub_zero, if_true]
    rw [List.nil_append, contValue, contValue, hmod]
    rfl
  | cons x more ih =>
    have hlt := lt_length_of_drop h
    have hx := hmore x List.mem_cons_self
    have hand := and_128 x.toNat_lt
    have hbound := x.toNat_lt
    have hdiv : x.toNat / 128 = 1 := by omega
    rw [List.length_cons] at hm
    have hlow : x.toNat - 128 = x.toNat % 128 := by omega
    rw [hpIntCont, if_neg (by omega)]
    simp only [getD_of_drop h, hand, hdiv, Nat.mul_one, if_neg (show ¬ 128 = 0 by decide), hlow]
    rw [ih (drop_next h) (by omega) (fun y hy => hmore y (List.mem_cons_of_mem x hy))]
    have hval : acc + x.toNat % 128 * 2 ^ m + contValue (more ++ [final]) * 2 ^ (m + 7) =
        acc + contValue (x :: more ++ [final]) * 2 ^ m := by
      rw [List.cons_append, contValue, Nat.pow_add]
      ring
    rw [hval, List.length_cons, Nat.add_assoc, Nat.add_comm 1]

theorem hpReadInt_eq {v last : Nat} (h : IntAt b pos mask v last) :
    hpReadInt b pos (b.getD pos 0).toNat mask = ⟨v, last, false⟩ := by
  obtain ⟨first, after, hdrop, h⟩ := h
  rw [getD_of_drop hdrop, hpReadInt]
  rcases h with ⟨hlt, rfl, rfl⟩ | ⟨heq, more, final, rest, rfl, hlen, hmore, hfinal, rfl, rfl⟩
  · exact if_pos hlt
  · simp only [heq, Nat.lt_irrefl, if_false]
    rw [hpIntCont_eq (drop_next hdrop) (by omega) hmore hfinal, Nat.pow_zero, Nat.mul_one,
      Nat.add_right_comm]

theorem h2BsAcc_eq {stop : Nat} (sb : StrBuf) (hi : i ≤ stop + 1) (hstop : stop < b.length) :
    h2BsAcc b stop i sb = finishText (sb ++ octetText ((b.drop i).take (stop + 1 - i))) := by
  induction hn : stop + 1 - i generalizing i sb with
  | zero =>
    rw [h2BsAcc, if_pos (by omega), List.take_zero]
    exact congrArg finishText (List.append_nil sb).symm
  | succ n ih =>
    have hget : b.getD i 0 = b[i] := List.getD_eq_getElem b 0 (by omega)
    rw [h2BsAcc, if_neg (by omega), ih _ (by omega) (by omega),
      List.drop_eq_getElem_cons (show i < b.length by omega), List.take_succ_cons, hget, pushChar,
      List.append_assoc]
    rfl

/-- Octets as a text at run time. -/
def text (s : List UInt8) : Str := finishText (octetText s)

theorem hpReadStr_eq {s : List UInt8} (h : StrAt b pos s next) :
    ∃ huf, hpReadStr b pos = ⟨text s, next, huf, false⟩ := by
  obtain ⟨n, last, hint, hlen, rfl, hs⟩ := h
  have hread := hpReadInt_eq hint
  have hpos : ¬ pos ≥ b.length := by
    obtain ⟨first, after, hdrop, -⟩ := hint
    have hlt := lt_length_of_drop hdrop
    omega
  have hfit : ¬ last + 1 + n > b.length := by omega
  rcases hs with ⟨hplain, rfl⟩ | ⟨hhuf, k, hk, hbits⟩
  · refine ⟨false, ?_⟩
    have hflag : ¬ (b.getD pos 0).toNat ≥ 128 := by omega
    have hstop : ¬ last + n ≥ b.length := by omega
    have hnum : last + n + 1 - (last + 1) = n := by omega
    simp only [hpReadStr, if_neg hpos, hread, Bool.false_eq_true, if_false, if_neg hfit,
      decide_eq_false hflag, if_neg hstop, h2BytesStr]
    rw [h2BsAcc_eq [] (by omega) (by omega), hnum, text, List.nil_append, Nat.add_right_comm]
  · refine ⟨true, ?_⟩
    have hdec := hpHuffLoop_codeWords (show (last + 1 + n) * 8 ≤ 8 * b.length by omega) hk []
      ((rest_octets b (last + 1) n).trans hbits)
    simp only [hpReadStr, if_neg hpos, hread, Bool.false_eq_true, if_false, if_neg hfit,
      decide_eq_true hhuf, if_true, hpHuffStr, hdec]
    rfl

/-! ## Entries as texts -/

def entryText (e : Field) : Str := text e.1 ++ '=' :: text e.2

def textField (e : Field) : HpField := ⟨text e.1, text e.2⟩

/-- The octet 61 is the sign that joins name and value. -/
def Plain (s : List UInt8) : Prop := 61 ∉ s

theorem eq_not_mem_text {s : List UInt8} (h : Plain s) : '=' ∉ text s := by
  intro hmem
  have hchar := List.takeWhile_subset _ hmem
  obtain ⟨x, hx, hx61⟩ := List.mem_map.1 hchar
  have hnat := congrArg Char.toNat hx61
  rw [toNat_codeChar] at hnat
  have h61 : x = 61 := UInt8.toNat_inj.1 hnat
  exact h (h61 ▸ hx)

theorem h2FindChar_eq {n v : Str} (h : '=' ∉ n) (hi : i ≤ n.length) :
    h2FindChar (n ++ '=' :: v) 61 i = n.length := by
  have hlen : strLen (n ++ '=' :: v) = n.length + 1 + v.length := by
    rw [strLen, List.length_append, List.length_cons]
    omega
  induction hk : n.length - i generalizing i with
  | zero =>
    obtain rfl : i = n.length := by omega
    have hat : strCharAt (n ++ '=' :: v) n.length = 61 := by
      rw [strCharAt, List.getElem?_append_right (Nat.le_refl _), Nat.sub_self]
      rfl
    rw [h2FindChar, if_neg (by omega), if_pos hat]
  | succ k ih =>
    have hat : strCharAt (n ++ '=' :: v) i ≠ 61 := by
      rw [strCharAt, List.getElem?_append_left (by omega),
        List.getElem?_eq_getElem (show i < n.length by omega)]
      intro heq
      replace heq : (n[i].toNat : Int) = 61 := heq
      have hchar : n[i] = '=' := Char.toNat_inj.1 (by exact_mod_cast heq)
      exact h (hchar ▸ List.getElem_mem _)
    rw [h2FindChar, if_neg (by omega), if_neg hat, ih (by omega) (by omega)]

/-- An entry is taken apart as it was joined, when the name has no sign of its own. -/
theorem split_entryText (h : Plain e.1) :
    hpStaticName (entryText e) = text e.1 ∧ hpStaticVal (entryText e) = text e.2 := by
  have hfind : h2FindChar (entryText e) 61 0 = ((text e.1).length : Int) :=
    h2FindChar_eq (eq_not_mem_text h) (Nat.zero_le _)
  have hneg : ¬ ((text e.1).length : Int) < 0 := by omega
  constructor
  · rw [hpStaticName, hfind]
    simp only [if_neg hneg, Int.toNat_natCast]
    rw [strSlice, List.drop_zero, Nat.sub_zero, entryText, List.take_left]
  · rw [hpStaticVal, hfind]
    simp only [if_neg hneg, Int.toNat_natCast]
    rw [strSlice, entryText, List.drop_length_add_append]
    show (text e.2).take _ = text e.2
    rw [List.take_of_length_le]
    rw [strLen, List.length_append, List.length_cons]
    omega

/-- Every entry has a text, of octets other than 0. -/
theorem static_octets : (staticTable.all fun s =>
    !s.toList.isEmpty && s.toList.all fun c => 0 < c.toNat && c.toNat < 256) = true := by
  decide +kernel

theorem static_table : staticTable.length = 61 ∧
    ∀ s ∈ staticTable, s.toList ≠ [] ∧ ∀ c ∈ s.toList, 0 < c.toNat ∧ c.toNat < 256 := by
  refine ⟨rfl, ?_⟩
  intro s hs
  have hall := List.all_eq_true.1 static_octets s hs
  simpa using hall

/-- Octets of a text are read back as that text. -/
theorem text_octetsOf {s : Str} (h : ∀ c ∈ s, 0 < c.toNat ∧ c.toNat < 256) :
    text (octetsOf s) = s := by
  have hchars : octetText (octetsOf s) = s := by
    rw [octetText, octetsOf, List.map_map]
    refine (List.map_congr_left ?_).trans (List.map_id s)
    intro c hc
    have hnat : (UInt8.ofNat c.toNat).toNat = c.toNat := UInt8.toNat_ofNat_of_lt' (h c hc).2
    exact Char.toNat_inj.1 ((toNat_codeChar _).trans hnat)
  rw [text, hchars, finishText, List.takeWhile_eq_self_iff]
  intro c hc
  have hpos := (h c hc).1
  have hne : c ≠ Char.ofNat 0 := by
    rintro rfl
    exact absurd hpos (by decide)
  simpa using hne

theorem h2FindChar_none {s : Str} (h : '=' ∉ s) (i : Nat) : h2FindChar s 61 i = -1 := by
  induction hk : strLen s - i generalizing i with
  | zero => rw [h2FindChar, if_pos (by omega)]
  | succ k ih =>
    have hlt : i < s.length := by
      unfold strLen at hk
      omega
    have hat : strCharAt s i ≠ 61 := by
      rw [strCharAt, List.getElem?_eq_getElem hlt]
      intro heq
      replace heq : (s[i].toNat : Int) = 61 := heq
      have hchar : s[i] = '=' := Char.toNat_inj.1 (by exact_mod_cast heq)
      exact h (hchar ▸ List.getElem_mem hlt)
    rw [h2FindChar, if_neg (by omega), if_neg hat, ih (i + 1) (by omega)]

/-- The name of an entry has no sign; name and value are parts of the entry. -/
theorem split_parts (s : Str) : '=' ∉ hpStaticName s ∧ (∀ c ∈ hpStaticName s, c ∈ s) ∧
    ∀ c ∈ hpStaticVal s, c ∈ s := by
  by_cases h : '=' ∈ s
  · obtain ⟨n, v, rfl, hn⟩ := List.eq_append_cons_of_mem h
    have hfind := h2FindChar_eq (v := v) hn (Nat.zero_le _)
    have hneg : ¬ (n.length : Int) < 0 := by omega
    have hname : hpStaticName (n ++ '=' :: v) = n := by
      rw [hpStaticName, hfind]
      simp only [if_neg hneg, Int.toNat_natCast]
      rw [strSlice, List.drop_zero, Nat.sub_zero, List.take_left]
    refine ⟨?_, ?_, ?_⟩
    · rw [hname]
      exact hn
    · rw [hname]
      intro c hc
      exact List.mem_append_left _ hc
    · intro c hc
      rw [hpStaticVal, hfind] at hc
      exact List.mem_of_mem_drop (List.mem_of_mem_take hc)
  · have hfind := h2FindChar_none h 0
    have hname : hpStaticName s = s := by rw [hpStaticName, hfind]; rfl
    have hval : hpStaticVal s = [] := by rw [hpStaticVal, hfind]; rfl
    rw [hname, hval]
    exact ⟨h, fun c hc => hc, fun c hc => absurd hc List.not_mem_nil⟩

/-- The static entries come back as texts. -/
theorem staticField_text (h : staticField i = some e) :
    hpStatic i ≠ [] ∧ Plain e.1 ∧ hpStaticName (hpStatic i) = text e.1 ∧
      hpStaticVal (hpStatic i) = text e.2 := by
  unfold staticField at h
  split_ifs at h with hi
  rw [Option.some.injEq] at h
  subst h
  obtain ⟨hlen, htable⟩ := static_table
  have hlt : i - 1 < staticTable.length := by omega
  have hent : hpStatic i = staticTable[i - 1].toList := by
    rw [hpStatic, if_neg (by omega), List.getElem?_eq_getElem hlt]
    rfl
  obtain ⟨hne, hchars⟩ := htable _ (List.getElem_mem hlt)
  rw [← hent] at hne hchars
  obtain ⟨hsign, hname, hval⟩ := split_parts (hpStatic i)
  have htext : text (octetsOf (hpStaticName (hpStatic i))) = hpStaticName (hpStatic i) :=
    text_octetsOf fun c hc => hchars c (hname c hc)
  refine ⟨hne, ?_, htext.symm, (text_octetsOf fun c hc => hchars c (hval c hc)).symm⟩
  intro hmem
  obtain ⟨c, hc, hc61⟩ := List.mem_map.1 hmem
  have hlt256 := (hchars c (hname c hc)).2
  have hnat := congrArg UInt8.toNat hc61
  rw [UInt8.toNat_ofNat_of_lt' hlt256] at hnat
  exact hsign ((Char.toNat_inj.1 hnat : c = '=') ▸ hc)

/-- The decoder's table beside that of the standard: everything that was inserted. -/
def Matches (t : Fifo entrySize) (dyn : List Str) : Prop :=
  dyn = t.all.map entryText ∧ ∀ e ∈ t.all, Plain e.1

/-- A field the standard finds at an index, the decoder finds there. -/
theorem hpLookup_eq (hm : Matches t dyn) (h : fieldAt t i = some e) :
    i ≠ 0 ∧ hpLookup i dyn ≠ [] ∧ Plain e.1 ∧
      hpStaticName (hpLookup i dyn) = text e.1 ∧ hpStaticVal (hpLookup i dyn) = text e.2 := by
  unfold fieldAt at h
  by_cases h0 : i = 0
  · rw [if_pos h0] at h
    cases h
  rw [if_neg h0] at h
  refine ⟨h0, ?_⟩
  by_cases hstatic : i ≤ 61
  · rw [if_pos hstatic] at h
    rw [hpLookup, if_pos ⟨by omega, hstatic⟩]
    exact staticField_text h
  · rw [if_neg hstatic] at h
    have hall := Fifo.getElem?_all h
    have hplain := hm.2 e (List.mem_of_getElem? hall)
    have hget : dyn[i - 62]? = some (entryText e) := by
      rw [hm.1, List.getElem?_map, hall]
      rfl
    have hlt := (List.getElem?_eq_some_iff.1 hget).1
    have hlook : hpLookup i dyn = entryText e := by
      rw [hpLookup, if_neg (by omega), if_neg (by omega), List.getD_eq_getElem?_getD, hget]
      rfl
    rw [hlook]
    refine ⟨?_, hplain, split_entryText hplain⟩
    intro hnil
    exact absurd (List.append_eq_nil_iff.1 hnil).2 (List.cons_ne_nil _ _)

/-! ## Both tables in step -/

/-- A new name that is added to the table has no sign in it. -/
def Op.Plain : Op → Prop
  | .literal (.new name) _ true => H2.Plain name
  | _ => True

theorem matches_addField (hm : Matches t dyn) {indexing : Bool} (h : indexing = true → Plain e.1) :
    Matches (addField t e indexing).2
      (hpMaybeInsert indexing dyn (text e.1 ++ '=' :: text e.2)) := by
  cases indexing with
  | false => exact hm
  | true =>
    refine ⟨?_, ?_⟩
    · show entryText e :: dyn = entryText e :: t.all.map entryText
      rw [hm.1]
    · intro e' he'
      rcases List.mem_cons.1 he' with rfl | he'
      · exact h rfl
      · exact hm.2 e' he'

/-- A literal field is read by its prefix. -/
theorem hpField_literal {indexing : Bool} (h : LiteralHead (b.getD pos 0).toNat mask indexing)
    (dyn : List Str) (accf : List HpField) : hpField b pos dyn accf =
      hpLiteral b pos dyn accf mask (b.getD pos 0).toNat indexing := by
  unfold hpField
  rcases h with ⟨hlo, hhi, rfl, rfl⟩ | ⟨hhi, rfl, rfl⟩
  · simp only [if_neg (show ¬ (b.getD pos 0).toNat ≥ 128 by omega),
      if_pos (show (b.getD pos 0).toNat ≥ 64 by omega)]
  · simp only [if_neg (show ¬ (b.getD pos 0).toNat ≥ 128 by omega),
      if_neg (show ¬ (b.getD pos 0).toNat ≥ 64 by omega),
      if_neg (show ¬ (b.getD pos 0).toNat ≥ 32 by omega)]

/-- What the standard's table answers to an operation, the decoder answers. -/
theorem hpField_eq {op : Op} (hat : OpAt b pos op next) {f : Option Field}
    (hrun : op.run t = some (f, t')) (hm : Matches t dyn) (hplain : op.Plain)
    (accf : List HpField) : ∃ dyn', Matches t' dyn' ∧
      hpField b pos dyn accf = .go next dyn' (accf ++ f.toList.map textField) := by
  cases hat with
  | @indexed i last head index =>
    obtain ⟨e, he, heq⟩ := Option.map_eq_some_iff.1 hrun
    obtain ⟨rfl, rfl⟩ := Prod.mk.inj heq
    obtain ⟨h0, hne, -, hname, hval⟩ := hpLookup_eq hm he
    refine ⟨dyn, hm, ?_⟩
    simp only [hpField, if_pos (show (b.getD pos 0).toNat ≥ 128 from head), hpReadInt_eq index,
      if_neg (show ¬ (false = true ∨ i = 0) by simpa using h0), if_neg hne, hname, hval]
    rfl
  | @entry i last next mask v indexing head index ne value =>
    obtain ⟨e, he, heq⟩ := Option.map_eq_some_iff.1 hrun
    obtain ⟨h0, hne, hp, hname, -⟩ := hpLookup_eq hm he
    obtain ⟨huf, hread⟩ := hpReadStr_eq value
    obtain ⟨rfl, rfl⟩ := Prod.mk.inj heq
    refine ⟨_, matches_addField hm (fun _ => hp), ?_⟩
    rw [hpField_literal head]
    simp only [hpLiteral, hpReadInt_eq index, Bool.false_eq_true, if_false, decide_eq_false h0,
      decide_eq_false hne, hread, hname]
    rfl
  | @new last mid next mask n v indexing head index name value =>
    obtain ⟨huf, hname⟩ := hpReadStr_eq name
    obtain ⟨huf', hval⟩ := hpReadStr_eq value
    obtain ⟨rfl, rfl⟩ := Prod.mk.inj (Option.some.inj hrun)
    refine ⟨_, matches_addField (e := (n, v)) hm ?_, ?_⟩
    · rintro rfl
      exact hplain
    · rw [hpField_literal head]
      simp only [hpLiteral, hpReadInt_eq index, Bool.false_eq_true, if_false, decide_true, if_true,
        hname, hval]
      rfl
  | @sizeUpdate max last head size =>
    obtain ⟨rfl, rfl⟩ := Prod.mk.inj (Option.some.inj hrun)
    refine ⟨dyn, hm, ?_⟩
    simp only [hpField, if_neg (show ¬ (b.getD pos 0).toNat ≥ 128 by omega),
      if_neg (show ¬ (b.getD pos 0).toNat ≥ 64 by omega),
      if_pos (show (b.getD pos 0).toNat ≥ 32 from head.1), hpReadInt_eq size, Bool.false_eq_true,
      if_false]
    simp

theorem OpAt.lt_length {op : Op} (h : OpAt b pos op next) : pos < b.length := by
  have hint : ∀ {mask v last}, IntAt b pos mask v last → pos < b.length := by
    rintro mask v last ⟨first, after, hdrop, -⟩
    exact lt_length_of_drop hdrop
  cases h with
  | indexed _ index => exact hint index
  | entry _ index _ _ => exact hint index
  | new _ index _ _ => exact hint index
  | sizeUpdate _ size => exact hint size

/-- A block the standard's table can read is decoded to the same fields. -/
theorem hpDecodeBlock_eq {stop : Int} {ops : List Op} (hat : OpsAt b stop pos ops)
    {fs : List Field} (hrun : runOps t ops = some (fs, t')) (hm : Matches t dyn)
    (hplain : ∀ op ∈ ops, op.Plain) (accf : List HpField) : ∃ next dyn', Matches t' dyn' ∧
      hpDecodeBlock b pos stop dyn accf = ⟨accf ++ fs.map textField, next, dyn', false⟩ := by
  induction hat generalizing t fs dyn accf with
  | @nil pos h =>
    obtain ⟨rfl, rfl⟩ := Prod.mk.inj (Option.some.inj hrun)
    refine ⟨pos, dyn, hm, ?_⟩
    rw [hpDecodeBlock, if_pos h]
    simp
  | @cons pos next op ops h head rest ih =>
    obtain ⟨⟨f, t1⟩, hop, hrest⟩ := Option.bind_eq_some_iff.1 hrun
    obtain ⟨⟨fs1, t2⟩, hops, heq⟩ := Option.bind_eq_some_iff.1 hrest
    obtain ⟨rfl, rfl⟩ := Prod.mk.inj (Option.some.inj heq)
    obtain ⟨dyn1, hm1, hfield⟩ := hpField_eq head hop hm (hplain op List.mem_cons_self) accf
    obtain ⟨last, dyn2, hm2, hblock⟩ := ih hops hm1
      (fun op' hop' => hplain op' (List.mem_cons_of_mem op hop')) (accf ++ f.toList.map textField)
    refine ⟨last, dyn2, hm2, ?_⟩
    have hlen := head.lt_length
    rw [hpDecodeBlock, if_neg (by omega), if_neg (by omega)]
    split
    · rename_i r hr
      rw [hfield] at hr
      cases hr
    · rename_i p d f' hr
      rw [hfield, HpStep.go.injEq] at hr
      obtain ⟨rfl, rfl, rfl⟩ := hr
      rw [hblock, List.map_append, List.append_assoc]

/-- Block after block, every field the standard's table gives is the one the decoder gives. -/
theorem decodeBlocks_eq {blocks : List Block} {fss : List (List Field)}
    (hrun : runBlocks t blocks = some (fss, t')) (hm : Matches t dyn)
    (hplain : ∀ blk ∈ blocks, ∀ op ∈ blk.ops, op.Plain) :
    (decodeBlocks dyn blocks).1.map HpBlock.fields = fss.map (List.map textField) ∧
      (∀ r ∈ (decodeBlocks dyn blocks).1, r.bad = false) ∧
      Matches t' (decodeBlocks dyn blocks).2 := by
  induction blocks generalizing t fss dyn with
  | nil =>
    obtain ⟨rfl, rfl⟩ := Prod.mk.inj (Option.some.inj hrun)
    refine ⟨rfl, ?_, hm⟩
    intro r hr
    cases hr
  | cons blk blks ih =>
    obtain ⟨⟨fs, t1⟩, hops, hrest⟩ := Option.bind_eq_some_iff.1 hrun
    obtain ⟨⟨fss1, t2⟩, hblks, heq⟩ := Option.bind_eq_some_iff.1 hrest
    obtain ⟨rfl, rfl⟩ := Prod.mk.inj (Option.some.inj heq)
    obtain ⟨next, dyn1, hm1, hblock⟩ := hpDecodeBlock_eq blk.holds hops hm
      (hplain blk List.mem_cons_self) []
    obtain ⟨hfields, hgood, hm2⟩ := ih hblks hm1
      (fun blk' h => hplain blk' (List.mem_cons_of_mem blk h))
    rw [decodeBlocks]
    simp only [hblock, List.nil_append]
    refine ⟨?_, ?_, hm2⟩
    · rw [List.map_cons, List.map_cons, hfields]
    · intro r hr
      rcases List.mem_cons.1 hr with rfl | hr
      · rfl
      · exact hgood r hr

/-- On a whole connection the decoder gives the fields of the standard's table, keeps everything
that was inserted, and answers every index that table holds with the entry it holds there. -/
theorem table_faithful (max : Nat) (blocks : List Block) (fss : List (List Field))
    (t : Fifo entrySize) (hrun : runBlocks (Fifo.empty max) blocks = some (fss, t))
    (hplain : ∀ blk ∈ blocks, ∀ op ∈ blk.ops, op.Plain) :
    (decodeBlocks [] blocks).1.map HpBlock.fields = fss.map (List.map textField) ∧
      (∀ r ∈ (decodeBlocks [] blocks).1, r.bad = false) ∧
      (decodeBlocks [] blocks).2 = t.all.map entryText ∧ total entrySize t.entries ≤ t.max ∧
      ∀ i e, t.entries[i]? = some e →
        hpLookup (i + 62) (decodeBlocks [] blocks).2 = entryText e ∧
        hpStaticName (entryText e) = text e.1 ∧ hpStaticVal (entryText e) = text e.2 := by
  have hempty : Matches (Fifo.empty max) [] := ⟨rfl, fun e he => absurd he List.not_mem_nil⟩
  obtain ⟨hfields, hgood, hm⟩ := decodeBlocks_eq hrun hempty hplain
  refine ⟨hfields, hgood, hm.1, t.fits, ?_⟩
  intro i e h
  have hall := Fifo.getElem?_all h
  have hget : (decodeBlocks [] blocks).2[i]? = some (entryText e) := by
    rw [hm.1, List.getElem?_map, hall]
    rfl
  have hlt := (List.getElem?_eq_some_iff.1 hget).1
  refine ⟨?_, split_entryText (hm.2 e (List.mem_of_getElem? hall))⟩
  rw [hpLookup, if_neg (by omega), if_neg (by omega), Nat.add_sub_cancel,
    List.getD_eq_getElem?_getD, hget]
  rfl

theorem intAt_short {first : UInt8} (h : b.drop pos = first :: after)
    (hlt : first.toNat &&& mask < mask) : IntAt b pos mask (first.toNat &&& mask) pos :=
  ⟨first, after, h, Or.inl ⟨hlt, rfl, rfl⟩⟩

/-- A string of one octet, plain. -/
theorem strAt_single (h : b.drop pos = 1 :: x :: after) : StrAt b pos [x] (pos + 2) := by
  have hint : IntAt b pos 127 1 pos := intAt_short h (by decide)
  have hlen := lt_length_of_drop (drop_next h)
  refine ⟨1, pos, hint, by omega, rfl, Or.inl ⟨?_, ?_⟩⟩
  · rw [getD_of_drop h]
    decide
  · rw [drop_next h]
    rfl

/-- An index in one octet. -/
theorem indexed_single (h : b.drop pos = x :: after) (hx : 128 ≤ x.toNat)
    (hi : x.toNat &&& 127 = i) (hlt : i < 127) : OpAt b pos (.indexed i) (pos + 1) := by
  subst hi
  exact OpAt.indexed (by rwa [getD_of_drop h]) (intAt_short h hlt)

/-- The field `a: b` added to the table. -/
def addAB : Op := .literal (.new [97]) [98] true

theorem addAB_at (after : List UInt8) : OpAt (64 :: 1 :: 97 :: 1 :: 98 :: after) 0 addAB 5 := by
  have hhead : LiteralHead ((64 :: 1 :: 97 :: 1 :: 98 :: after).getD 0 0).toNat 63 true :=
    Or.inl ⟨Nat.le_refl 64, (by decide : 64 < 128), rfl, rfl⟩
  have hindex : IntAt (64 :: 1 :: 97 :: 1 :: 98 :: after) 0 63 0 0 :=
    intAt_short (show _ = 64 :: _ from rfl) (by decide)
  exact OpAt.new hhead hindex (strAt_single rfl) (strAt_single rfl)

/-- The field is added, then read back from the table. -/
def added : Block where
  bytes := [64, 1, 97, 1, 98, 190]
  pos := 0
  stop := 5
  ops := [addAB, .indexed 62]
  holds := OpsAt.cons (by decide) (addAB_at [190]) <|
    OpsAt.cons (by decide) (indexed_single rfl (by decide) rfl (by decide)) (OpsAt.nil (by decide))

/-- The field read back from the table, and with a size update before it is read. -/
theorem added_runs :
    (runBlocks (Fifo.empty 4096) [added]).map Prod.fst =
      some [[([97], [98]), ([97], [98])]] ∧
    (runOps (Fifo.empty 4096) [addAB, .sizeUpdate 0, .indexed 62]).isNone = true ∧
    hpDecodeBlock [64, 1, 97, 1, 98, 32, 190] 0 6 [] [] =
      ⟨[⟨['a'], ['b']⟩, ⟨['a'], ['b']⟩], 7, [['a', '=', 'b']], false⟩ := by
  decide +kernel

theorem table_faithful_added :
    (decodeBlocks [] [added]).1.map HpBlock.fields =
      [[([97], [98]), ([97], [98])].map textField] := by
  have hplain : ∀ blk ∈ [added], ∀ op ∈ blk.ops, op.Plain := by
    intro blk hblk op hop
    obtain rfl := List.mem_singleton.1 hblk
    rcases List.mem_cons.1 hop with rfl | hop
    · show 61 ∉ [97]
      decide
    · obtain rfl := List.mem_singleton.1 hop
      trivial
  obtain ⟨⟨fss, t⟩, hsome, rfl⟩ := Option.map_eq_some_iff.1 added_runs.1
  exact (table_faithful 4096 [added] _ t hsome hplain).1

/-- The field is added, the table emptied by a size update, and the field read back all the same. -/
theorem evicted_answered :
    OpsAt [64, 1, 97, 1, 98, 32, 190] 6 0 [addAB, .sizeUpdate 0, .indexed 62] ∧
    (runOps (Fifo.empty 4096) [addAB, .sizeUpdate 0, .indexed 62]).isNone = true ∧
    hpDecodeBlock [64, 1, 97, 1, 98, 32, 190] 0 6 [] [] =
      ⟨[⟨['a'], ['b']⟩, ⟨['a'], ['b']⟩], 7, [['a', '=', 'b']], false⟩ := by
  refine ⟨?_, added_runs.2⟩
  have hsize : IntAt [64, 1, 97, 1, 98, 32, 190] 5 31 0 5 :=
    intAt_short (show _ = 32 :: _ from rfl) (by decide)
  have hindex : OpAt [64, 1, 97, 1, 98, 32, 190] 6 (.indexed 62) 7 :=
    indexed_single rfl (by decide) rfl (by decide)
  exact OpsAt.cons (by decide) (addAB_at [32, 190]) <|
    OpsAt.cons (by decide) (OpAt.sizeUpdate (by decide) hsize) <|
      OpsAt.cons (by decide) hindex (OpsAt.nil (by decide))

end H2
