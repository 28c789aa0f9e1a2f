import Resid.Registry.Upload

/-!
# The transcript of a proof

A challenge is drawn from the bytes of all that was written, so they must tell what was written:
one transcript begins the bytes of another only as its items begin the other's.

    trU64be xs.length ++ (xs ++ s) tells xs and s                    (trU64be_append_inj)
    bytes of xs <+: bytes of ys ↔ items of xs <+: items of ys        (transcript_prefix_iff)
-/

namespace Cggmp

open Registry Runtime

structure Transcript where
  items : List (List Byte)

def trNew : Transcript := ⟨[bytesOf "CMP-BLAKE".toList]⟩

/-- The upper four bytes are always zero. -/
def trU64be (n : Nat) : List Byte :=
  [0, 0, 0, 0, n >>> 24, n >>> 16, n >>> 8, n].map fun b => Fin.ofNat 256 (b &&& 255)

def trFrame (domain : Str) (data : List Byte) : List Byte :=
  let d := bytesOf domain
  40 :: (trU64be d.length ++ (d ++ (trU64be data.length ++ (data ++ [41]))))

def trItem (t : Transcript) (domain : Str) (data : List Byte) : Transcript :=
  ⟨t.items ++ [trFrame domain data]⟩

def trFlat : (items : List (List Byte)) → (acc : List Byte) → List Byte
  | [], acc => acc
  | x :: items, acc => trFlat items (acc ++ x)

/-- The bytes of the transcript with `xs` written in order. -/
def written (xs : List (Str × List Byte)) : List Byte :=
  trFlat (xs.foldl (fun t x => trItem t x.1 x.2) trNew).items []

/-- What an item is to tell. -/
def told (x : Str × List Byte) : List Byte × List Byte := (bytesOf x.1, x.2)

/-- Neither length needs a fifth byte. -/
def Short (x : Str × List Byte) : Prop := (told x).1.length < 2 ^ 32 ∧ x.2.length < 2 ^ 32

theorem trU64be_append_inj {xs ys s t : List Byte} (hx : xs.length < 2 ^ 32)
    (hy : ys.length < 2 ^ 32)
    (h : trU64be xs.length ++ (xs ++ s) = trU64be ys.length ++ (ys ++ t)) : xs = ys ∧ s = t := by
  obtain ⟨hlen, hrest⟩ := List.append_inj h rfl
  have hlow : ∀ x : Nat, x &&& 255 = x % 256 := fun x => Nat.and_two_pow_sub_one_eq_mod x 8
  simp only [trU64be, List.map_cons, hlow, Nat.shiftRight_eq_div_pow, List.cons.injEq,
    Fin.ext_iff, Fin.val_ofNat] at hlen
  exact List.append_inj hrest (by omega)

theorem trFrame_append_inj {x y : Str × List Byte} {s t : List Byte} (hx : Short x)
    (hy : Short y) (h : trFrame x.1 x.2 ++ s = trFrame y.1 y.2 ++ t) :
    told x = told y ∧ s = t := by
  simp only [trFrame, List.cons_append, List.append_assoc, List.cons.injEq, true_and] at h
  obtain ⟨hdomain, hrest⟩ := trU64be_append_inj hx.1 hy.1 h
  obtain ⟨hdata, hrest⟩ := trU64be_append_inj hx.2 hy.2 hrest
  exact ⟨Prod.ext hdomain hdata, (List.cons.inj hrest).2⟩

theorem trFlat_eq (items : List (List Byte)) (acc : List Byte) :
    trFlat items acc = acc ++ items.flatten := by
  induction items generalizing acc with
  | nil => simp [trFlat]
  | cons x items ih => simp [trFlat, ih]

theorem written_eq (xs : List (Str × List Byte)) :
    written xs = trNew.items.flatten ++ xs.flatMap fun x => trFrame x.1 x.2 := by
  rw [written, trFlat_eq, List.nil_append]
  generalize trNew = t
  induction xs generalizing t with
  | nil => simp
  | cons x xs ih =>
    rw [List.foldl_cons, ih]
    simp [trItem]

/-- One transcript begins the bytes of another exactly where its items begin the other's. -/
theorem transcript_prefix_iff {xs ys : List (Str × List Byte)} (hx : ∀ x ∈ xs, Short x)
    (hy : ∀ y ∈ ys, Short y) : written xs <+: written ys ↔ xs.map told <+: ys.map told := by
  rw [written_eq, written_eq, List.prefix_append_right_inj]
  induction xs generalizing ys with
  | nil => simp
  | cons x xs ih =>
    cases ys with
    | nil => simp [trFrame]
    | cons y ys =>
      have hrest := ih (fun a ha => hx a (.tail _ ha)) (@fun a ha => hy a (.tail _ ha))
      rw [List.flatMap_cons, List.flatMap_cons, List.map_cons, List.map_cons,
        List.cons_prefix_cons, ← hrest]
      constructor
      · rintro ⟨t, h⟩
        rw [List.append_assoc] at h
        obtain ⟨hone, hmore⟩ := trFrame_append_inj (hx x (.head _)) (hy y (.head _)) h
        exact ⟨hone, t, hmore⟩
      · rintro ⟨hone, hmore⟩
        have hframe : trFrame x.1 x.2 = trFrame y.1 y.2 := by
          simp only [told, Prod.mk.injEq] at hone
          rw [trFrame, hone.1, hone.2, trFrame]
        rw [hframe]
        exact (List.prefix_append_right_inj _).2 hmore

theorem transcript_prefix_iff_one : written [(['a'], [1])] <+: written [(['a'], [1]), ([], [])] ↔
    [(['a'], [1])].map told <+: [(['a'], [1]), ([], [])].map told := by
  apply transcript_prefix_iff <;> simp [Short, told, bytesOf, utf8Cp]

end Cggmp
