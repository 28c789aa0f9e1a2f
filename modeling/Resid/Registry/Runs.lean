import Resid.Registry.IndexText
import Resid.Registry.Writes

/-!
# Archive, sidecar and index in step

A store is *in step* with the archives of a run when whatever sidecar holds the hash of one of
them, the archive is stored there and listed once in the index.  A step that is not interrupted
between the hash and the index keeps that, for packages whose names can stand in the index.

    InStep es st → InStep es (step st e).store                          (step_keeps)
-/

namespace Registry

open Runtime Package RegStore

section Steps

variable {T : Type} [RegStore T] (c : Crypto)

/-- A package that can stand in a line of the index. -/
def isListable (name version : Str) : Bool :=
  isName name && isWord version && isAsciiText (name ++ version)

/-- An upload of a package that can stand in the index, interrupted neither between the hash
and the index nor by its clock. -/
structure Careful (e : Upload) : Prop where
  listable : ∀ name version, packageOf e.req.body = some (name, version) → name ≠ [] →
    version ≠ [] → isListable name version = true
  cut : e.cut ≠ some 2 ∧ e.cut ≠ some 3
  clock : CheckedInt.Fits 64 (e.now + idxTtl)

/-- The archive is stored and listed, if the sidecar of its package says so. -/
def Listed (st : T) (body : List Byte) : Prop :=
  ∀ name version, packageOf body = some (name, version) →
    sidecar st (baseName name version) = hashHex c body →
    storeGet st (pkgPath (baseName name version)) = body ∧
      (indexOf st).filter (isNamed name version) = [⟨name, version, hashHex c body⟩]

structure InStep (es : List Upload) (st : T) : Prop where
  ascii : isAsciiText (bytesToAscii (storeGet st idxPath)) = true
  listed : ∀ e ∈ es, Listed c st e.req.body

/-- No two archives of the run have one hash. -/
def Distinct (es : List Upload) : Prop :=
  ∀ e ∈ es, ∀ e' ∈ es, hashHex c e.req.body = hashHex c e'.req.body → e.req.body = e'.req.body

/-! ## The next index -/

theorem hashHex_free (body : List Byte) : ∀ d ∈ hashHex c body, isSpace d = false :=
  fun _ hd => isSpace_hexEncode hd

theorem hashHex_ne (body : List Byte) : hashHex c body ≠ [] := by
  apply hexEncode_ne
  intro hnil
  have hlen := (c.contentHash body).property
  rw [hnil] at hlen
  cases hlen

theorem isAsciiText_hashHex (body : List Byte) : isAsciiText (hashHex c body) = true := by
  have hdigit : ∀ d < 16, 0 < (hexDigit d).toNat ∧ (hexDigit d).toNat < 128 := by decide
  rw [isAsciiText_iff]
  intro d hd
  obtain ⟨b, -, hb⟩ := List.mem_flatMap.1 hd
  rcases List.mem_cons.1 hb with rfl | hb
  · exact hdigit _ (by omega)
  · rw [List.mem_singleton.1 hb]
    exact hdigit _ (by omega)

theorem plain_new {name version : Str} (h : isListable name version = true) (body : List Byte) :
    Plain ⟨name, version, hashHex c body⟩ := by
  unfold isListable at h
  simp only [Bool.and_eq_true] at h
  obtain ⟨⟨hname, hversion⟩, hascii⟩ := h
  exact ⟨hname, hversion, isLastWord_of_free (hashHex_ne c body) (hashHex_free c body),
    isAsciiText_append hascii (isAsciiText_hashHex c body)⟩

/-- What the next index says: its entries, its serial, and that it is ASCII text. -/
theorem nextIndex_spec {old : List Byte} (hold : isAsciiText (bytesToAscii old) = true)
    {name version : Str} (hlist : isListable name version = true) (body : List Byte) {now : Int}
    (hserial : CheckedInt.Fits 64 ((idxMeta (bytesToAscii old)).serial + 1))
    (hnow : CheckedInt.Fits 64 (now + idxTtl)) :
    let text := bytesToAscii (bytesOf (nextIndex old name version (hashHex c body) now))
    isAsciiText text = true ∧
      (parseIndexText text).Perm (idxRemove (parseIndexText (bytesToAscii old)) name version ++
        [⟨name, version, hashHex c body⟩]) ∧
      (idxMeta text).serial = (idxMeta (bytesToAscii old)).serial + 1 := by
  have hplain : ∀ e ∈ idxRemove (parseIndexText (bytesToAscii old)) name version ++
      [⟨name, version, hashHex c body⟩], Plain e := by
    intro e he
    rcases List.mem_append.1 he with he | he
    · exact plain_of_mem hold (List.mem_of_mem_filter he)
    · rw [List.mem_singleton.1 he]
      exact plain_new c hlist body
  have hascii := isAsciiText_indexText hplain
    ⟨(idxMeta (bytesToAscii old)).serial + 1, now + idxTtl⟩
  intro text
  have htext : text = nextIndex old name version (hashHex c body) now :=
    bytesToAscii_bytesOf hascii
  rw [htext]
  unfold nextIndex
  refine ⟨hascii, ?_, ?_⟩
  · rw [parse_indexText hplain]
    exact sortIdxEntries_perm _
  · rw [idxMeta_indexText hplain hserial hnow]

theorem filter_named_next {es : List IdxEntry} {name version : Str} (hash : Str) :
    (idxRemove es name version ++ [IdxEntry.mk name version hash]).filter (isNamed name version) =
      [⟨name, version, hash⟩] := by
  have hself : isNamed name version ⟨name, version, hash⟩ = true := by simp [isNamed]
  have hrest : (idxRemove es name version).filter (isNamed name version) = [] := by
    rw [List.filter_eq_nil_iff]
    intro e he
    have := (List.mem_filter.1 he).2
    simpa using this
  rw [List.filter_append, hrest, List.filter_cons_of_pos hself, List.filter_nil, List.nil_append]

theorem filter_other_next {es : List IdxEntry} {name version name' version' : Str} (hash : Str)
    (h : ¬ (name' = name ∧ version' = version)) :
    (idxRemove es name version ++ [IdxEntry.mk name version hash]).filter (isNamed name' version') =
      es.filter (isNamed name' version') := by
  have hnew : isNamed name' version' ⟨name, version, hash⟩ = false := by
    unfold isNamed
    rw [Bool.and_eq_false_iff, beq_eq_false_iff_ne, beq_eq_false_iff_ne, ← not_and_or]
    exact fun hboth => h ⟨hboth.1.symm, hboth.2.symm⟩
  have hrest : (idxRemove es name version).filter (isNamed name' version') =
      es.filter (isNamed name' version') := by
    unfold idxRemove
    rw [List.filter_filter]
    apply List.filter_congr
    intro e _
    rw [Bool.and_eq_left_iff_imp]
    intro he
    unfold isNamed at he ⊢
    rw [Bool.and_eq_true, beq_iff_eq, beq_iff_eq] at he
    rw [Bool.not_eq_true', Bool.and_eq_false_iff, beq_eq_false_iff_ne, beq_eq_false_iff_ne,
      ← not_and_or, he.1, he.2]
    exact h
  rw [List.filter_append, hrest, List.filter_cons_of_neg (by rw [hnew]; exact Bool.false_ne_true),
    List.filter_nil, List.append_nil]

/-! ## After the writes of an upload -/

theorem path_newWrites {old : List Byte} {u : UploadCfg} {r : PutRequest} {name version : Str}
    {now : Int} {w : Str × List Byte} (h : w ∈ newWrites c old u r name version now) :
    w.1 = pkgPath (baseName name version) ∨ w.1 = shaPath (baseName name version) ∨
      w.1 = sigPath (baseName name version) ∨ w.1 = idxPath ∨ w.1 = idxSigPath := by
  unfold newWrites at h
  simp only [List.mem_cons, List.not_mem_nil, or_false] at h
  rcases h with rfl | rfl | rfl | rfl | rfl <;> simp

theorem sidecar_text (body : List Byte) :
    strTrim (bytesToAscii (bytesOf (hashHex c body ++ "\n".toList))) = hashHex c body := by
  have hascii := isAsciiText_append (isAsciiText_hashHex c body)
    (show isAsciiText "\n".toList = true by decide)
  have hne := hashHex_ne c body
  have hfree := hashHex_free c body
  rw [bytesToAscii_bytesOf hascii]
  generalize hashHex c body = h at hne hfree
  obtain ⟨d, s, rfl⟩ := List.exists_cons_of_ne_nil hne
  have hdrop : ((d :: s) ++ "\n".toList).dropWhile isSpace = (d :: s) ++ "\n".toList := by
    rw [List.cons_append, List.dropWhile_cons_of_neg]
    rw [hfree d List.mem_cons_self]
    exact Bool.false_ne_true
  have hend : "\n".toList = ['\n'] := rfl
  have hself : (d :: s).rdropWhile isSpace = d :: s := by
    apply List.rdropWhile_eq_self_iff.2
    intro hne'
    rw [hfree _ (List.getLast_mem hne')]
    exact Bool.false_ne_true
  unfold strTrim
  rw [hdrop, hend, List.rdropWhile_concat_pos isSpace (d :: s) '\n' (by decide), hself]

section Wrote

variable [LawfulRegStore T] (st : T) (e : Upload) (name version : Str) (k : Nat)

/-- The first `k` files of an upload. -/
def wrote : T :=
  putAll st ((newWrites c (storeGet st idxPath) e.cfg e.req name version e.now).take k)

/-- Nothing of another package is put. -/
theorem wrote_others {base : Str} (h : base ≠ baseName name version) :
    sidecar (wrote c st e name version k) base = sidecar st base ∧
      storeGet (wrote c st e name version k) (pkgPath base) = storeGet st (pkgPath base) ∧
      storeHas (wrote c st e name version k) (pkgPath base) = storeHas st (pkgPath base) := by
  have hpkg : ∀ w ∈ (newWrites c (storeGet st idxPath) e.cfg e.req name version e.now).take k,
      w.1 ≠ pkgPath base := by
    intro w hw
    rcases path_newWrites c (List.mem_of_mem_take hw) with hp | hp | hp | hp | hp <;> rw [hp]
    · exact fun h0 => h (pkgPath_inj h0).symm
    · exact (pkgPath_ne_shaPath _ _).symm
    · exact (pkgPath_ne_sigPath _ _).symm
    · exact (pkgPath_ne_idxPath _).symm
    · exact (pkgPath_ne_idxSigPath _).symm
  have hsha : ∀ w ∈ (newWrites c (storeGet st idxPath) e.cfg e.req name version e.now).take k,
      w.1 ≠ shaPath base := by
    intro w hw
    rcases path_newWrites c (List.mem_of_mem_take hw) with hp | hp | hp | hp | hp <;> rw [hp]
    · exact pkgPath_ne_shaPath _ _
    · exact fun h0 => h (shaPath_inj h0).symm
    · exact (shaPath_ne_sigPath _ _).symm
    · exact (shaPath_ne_idxPath _).symm
    · exact (shaPath_ne_idxSigPath _).symm
  unfold sidecar wrote
  exact ⟨by rw [get_putAll st hsha], get_putAll st hpkg, has_putAll st hpkg⟩

/-- The archive is there from the first write on. -/
theorem wrote_pkg : storeGet (wrote c st e name version (k + 1)) (pkgPath (baseName name version)) =
    e.req.body := by
  have hrest : ∀ w ∈ ((newWrites c (storeGet st idxPath) e.cfg e.req name version e.now).drop 1).take k,
      w.1 ≠ pkgPath (baseName name version) := by
    intro w hw
    have hw' := List.mem_of_mem_take hw
    unfold newWrites at hw'
    simp only [List.drop_succ_cons, List.drop_zero, List.mem_cons, List.not_mem_nil, or_false] at hw'
    rcases hw' with rfl | rfl | rfl | rfl
    · exact (pkgPath_ne_shaPath _ _).symm
    · exact (pkgPath_ne_sigPath _ _).symm
    · exact (pkgPath_ne_idxPath _).symm
    · exact (pkgPath_ne_idxSigPath _).symm
  exact get_putAll_last st [] _ e.req.body hrest

/-- The hash from the second on. -/
theorem wrote_sidecar : sidecar (wrote c st e name version (k + 2)) (baseName name version) =
    hashHex c e.req.body := by
  have hrest : ∀ w ∈ ((newWrites c (storeGet st idxPath) e.cfg e.req name version e.now).drop 2).take k,
      w.1 ≠ shaPath (baseName name version) := by
    intro w hw
    have hw' := List.mem_of_mem_take hw
    unfold newWrites at hw'
    simp only [List.drop_succ_cons, List.drop_zero, List.mem_cons, List.not_mem_nil, or_false] at hw'
    rcases hw' with rfl | rfl | rfl
    · exact (shaPath_ne_sigPath _ _).symm
    · exact (shaPath_ne_idxPath _).symm
    · exact (shaPath_ne_idxSigPath _).symm
  have hget : storeGet (wrote c st e name version (k + 2)) (shaPath (baseName name version)) =
      bytesOf (hashHex c e.req.body ++ "\n".toList) :=
    get_putAll_last st ((newWrites c (storeGet st idxPath) e.cfg e.req name version e.now).take 1)
      _ _ hrest
  unfold sidecar
  rw [hget]
  exact sidecar_text c e.req.body

/-- With one write at most, no hash. -/
theorem wrote_sidecar_one : sidecar (wrote c st e name version 1) (baseName name version) =
    sidecar st (baseName name version) := by
  have hget : storeGet (wrote c st e name version 1) (shaPath (baseName name version)) =
      storeGet st (shaPath (baseName name version)) := by
    show storeGet (storePut st (pkgPath (baseName name version)) _) _ = _
    exact LawfulRegStore.get_put_other st _ (pkgPath_ne_shaPath _ _).symm
  unfold sidecar
  rw [hget]

/-- The next index from the fourth on. -/
theorem wrote_index : storeGet (wrote c st e name version (k + 4)) idxPath =
    bytesOf (nextIndex (storeGet st idxPath) name version (hashHex c e.req.body) e.now) := by
  have hrest : ∀ w ∈ ((newWrites c (storeGet st idxPath) e.cfg e.req name version e.now).drop 4).take k,
      w.1 ≠ idxPath := by
    intro w hw
    have hw' := List.mem_of_mem_take hw
    unfold newWrites at hw'
    simp only [List.drop_succ_cons, List.drop_zero, List.mem_cons, List.not_mem_nil, or_false] at hw'
    rw [hw']
    have hsig : idxSigPath ≠ idxPath := by decide
    exact hsig
  exact get_putAll_last st
    ((newWrites c (storeGet st idxPath) e.cfg e.req name version e.now).take 3) _ _ hrest

/-- The index as it was before the fourth. -/
theorem wrote_index_old (h : k ≤ 3) :
    storeGet (wrote c st e name version k) idxPath = storeGet st idxPath := by
  have hold := idx_newWrites c st (storeGet st idxPath) e.cfg e.req name version e.now k
  rw [List.take_take, Nat.min_eq_left h] at hold
  exact hold

end Wrote

end Steps

/-!
## Runs of a registry

    InStep es st → InStep es (step st e).store                                  (inStep_wrote, step_keeps)
    the index is the same, or its serial is one more                            (step_keeps)
    at the end of any run: the same index, or a greater serial                  (run_keeps)

so an upload that is answered is stored, listed once, and nothing published is lost.
-/

open Http

section Runs

variable {T : Type} [RegStore T] (c : Crypto)

theorem strParseInt_ge (s : Str) : -9223372036854775808 ≤ strParseInt s := by
  unfold strParseInt
  simp only
  split_ifs
  · decide
  · exact Int.le_max_left _ _
  · have hfold : ∀ (ds : Str) (n : Nat), ds.all isAsciiDigit = true →
        0 ≤ ds.foldl (fun acc c => acc * 10 + ((c.toNat : Int) - 48)) (n : Int) := by
      intro ds n hall
      rw [foldl_digits hall]
      exact Int.natCast_nonneg _
    rename_i hdigits hsign
    rw [Bool.or_eq_true, not_or] at hdigits
    have h := hfold _ 0 (by simpa using hdigits.2)
    rw [Int.le_min]
    exact ⟨by decide, Int.le_trans (by decide) h⟩

theorem serial_ge (text : Str) : -9223372036854775808 ≤ (idxMeta text).serial := by
  have hline : ∀ (m : IdxMeta) (line : Str), -9223372036854775808 ≤ m.serial →
      -9223372036854775808 ≤ (idxMetaLine m line).serial := by
    intro m line hm
    unfold idxMetaLine
    match splitWs (strTrim line) with
    | [key, value] =>
      simp only
      split_ifs
      · exact strParseInt_ge value
      · exact hm
      · exact hm
    | [] => exact hm
    | [_] => exact hm
    | _ :: _ :: _ :: _ => exact hm
  have hfold : ∀ (ls : List Str) (m : IdxMeta), -9223372036854775808 ≤ m.serial →
      -9223372036854775808 ≤ (ls.foldl idxMetaLine m).serial := by
    intro ls
    induction ls with
    | nil => exact fun m hm => hm
    | cons l ls ih => exact fun m hm => ih _ (hline m l hm)
  exact hfold _ _ (by decide)

/-! ## One step -/

section Step

variable [LawfulRegStore T] {c} {es : List Upload} {st : T} {e : Upload} {name version : Str}

/-- The index after the fourth write: its text, its entries and its serial. -/
theorem index_wrote (h : InStep c es st) (hlist : isListable name version = true)
    (hserial : CheckedInt.Fits 64 ((metaOf st).serial + 1))
    (hnow : CheckedInt.Fits 64 (e.now + idxTtl)) (k : Nat) :
    isAsciiText (bytesToAscii (storeGet (wrote c st e name version (k + 4)) idxPath)) = true ∧
      (indexOf (wrote c st e name version (k + 4))).Perm (idxRemove (indexOf st) name version ++
        [⟨name, version, hashHex c e.req.body⟩]) ∧
      (metaOf (wrote c st e name version (k + 4))).serial = (metaOf st).serial + 1 := by
  unfold indexOf metaOf
  rw [wrote_index]
  exact nextIndex_spec c h.ascii hlist e.req.body hserial hnow

theorem inStep_wrote (h : InStep c es st) (hd : Distinct c es) (he : e ∈ es)
    (hpackage : packageOf e.req.body = some (name, version))
    (hlist : isListable name version = true)
    (hside : sidecar st (baseName name version) = [])
    (hserial : CheckedInt.Fits 64 ((metaOf st).serial + 1))
    (hnow : CheckedInt.Fits 64 (e.now + idxTtl)) {k : Nat} (hk : k ≠ 2 ∧ k ≠ 3) :
    InStep c es (wrote c st e name version k) := by
  have hindex := index_wrote h hlist hserial hnow
  have hkcases : k = 0 ∨ k = 1 ∨ ∃ j, k = j + 4 := by
    rcases Nat.lt_or_ge k 4 with hlt | hge
    · omega
    · exact Or.inr (Or.inr ⟨k - 4, by omega⟩)
  constructor
  · rcases hkcases with rfl | rfl | ⟨j, rfl⟩
    · exact h.ascii
    · rw [wrote_index_old c st e name version 1 (by decide)]
      exact h.ascii
    · exact (hindex j).1
  intro e' he' name' version' hpackage' hside'
  by_cases hbase : baseName name' version' = baseName name version
  · rcases hkcases with rfl | rfl | ⟨j, rfl⟩
    · exact h.listed e' he' name' version' hpackage' hside'
    · rw [hbase, wrote_sidecar_one, hside] at hside'
      exact absurd hside'.symm (hashHex_ne c e'.req.body)
    · -- the hash there is this archive's
      rw [hbase, show j + 4 = (j + 2) + 2 from rfl, wrote_sidecar] at hside'
      have hbody := hd e he e' he' hside'
      rw [← hbody, hpackage] at hpackage'
      cases hpackage'
      rw [← hbody]
      refine ⟨wrote_pkg c st e name version (j + 3), ?_⟩
      have hperm := ((hindex j).2.1).filter (isNamed name version)
      rw [filter_named_next] at hperm
      exact List.perm_singleton.1 hperm
  · obtain ⟨hsame, hget, -⟩ := wrote_others c st e name version k hbase
    rw [hsame] at hside'
    obtain ⟨hstored, hfilter⟩ := h.listed e' he' name' version' hpackage' hside'
    refine ⟨hget.trans hstored, ?_⟩
    rcases hkcases with rfl | rfl | ⟨j, rfl⟩
    · exact hfilter
    · unfold indexOf at hfilter ⊢
      rw [wrote_index_old c st e name version 1 (by decide)]
      exact hfilter
    · have hother : ¬ (name' = name ∧ version' = version) := by
        rintro ⟨rfl, rfl⟩
        exact hbase rfl
      have hperm := ((hindex j).2.1).filter (isNamed name' version')
      rw [filter_other_next _ hother, hfilter] at hperm
      exact List.perm_singleton.1 hperm

/-- What an upload that is answered 200 or 201 leaves in the store. -/
structure Accepted (c : Crypto) (st st' : T) (e : Upload) (name version : Str) : Prop where
  asks : Asks c e.cfg e.req name version
  archive : storeGet st' (pkgPath (baseName name version)) = e.req.body
  listed : (indexOf st').filter (isNamed name version) = [⟨name, version, hashHex c e.req.body⟩]
  others : ∀ x ∈ indexOf st, isNamed name version x = false → x ∈ indexOf st'

/-- What one upload does, from a store in step. -/
structure Kept (c : Crypto) (st : T) (e : Upload) : Prop where
  archives : ∀ base, storeHas st (pkgPath base) = true →
    storeHas (step c st e).store (pkgPath base) = true ∧
      storeGet (step c st e).store (pkgPath base) = storeGet st (pkgPath base)
  refused : ∀ reply, (step c st e).reply = some reply → reply.status ≠ 200 →
    reply.status ≠ 201 → (step c st e).store = st
  accepted : ∀ reply, (step c st e).reply = some reply →
    reply.status = 200 ∨ reply.status = 201 →
    ∃ name version, Accepted c st (step c st e).store e name version
  serial : (storeGet (step c st e).store idxPath = storeGet st idxPath ∧
      ∀ reply, (step c st e).reply = some reply → reply.status ≠ 201) ∨
    (metaOf (step c st e).store).serial = (metaOf st).serial + 1

theorem step_keeps (h : InStep c es st) (hd : Distinct c es) (he : e ∈ es) (hcareful : Careful e)
    (hserial : (metaOf st).serial + 1 < 9223372036854775808) :
    InStep c es (step c st e).store ∧ Kept c st e := by
  have hfits : CheckedInt.Fits 64 ((metaOf st).serial + 1) := by
    have hge := serial_ge (bytesToAscii (storeGet st idxPath))
    rw [CheckedInt.fits_64]
    unfold metaOf at hserial ⊢
    omega
  rcases step_cases c st e hfits hcareful.clock with ⟨hstore, hreply⟩ | ⟨name, version, hasks, hcase⟩
  · refine ⟨by rw [hstore]; exact h, ?_⟩
    constructor
    · rw [hstore]
      exact fun base hhas => ⟨hhas, rfl⟩
    · exact fun reply _ _ _ => hstore
    · intro reply hr hcode
      exact absurd hcode (not_or.2 (hreply reply hr))
    · rw [hstore]
      exact Or.inl ⟨rfl, fun reply hr => (hreply reply hr).2⟩
  have hlist := hcareful.listable name version hasks.package hasks.named.1 hasks.named.2
  rcases hcase with ⟨hsame, hstore, reply, hreply, hcode⟩ | ⟨hside, hhas, k, hstore, hend⟩
  · obtain ⟨hget, hfilter⟩ := h.listed e he name version hasks.package hsame
    refine ⟨by rw [hstore]; exact h, ?_⟩
    constructor
    · rw [hstore]
      exact fun base hhas => ⟨hhas, rfl⟩
    · exact fun reply _ _ _ => hstore
    · rw [hstore]
      exact fun reply _ _ => ⟨name, version, hasks, hget, hfilter, fun x hx _ => hx⟩
    · rw [hstore]
      refine Or.inl ⟨rfl, fun reply' hr => ?_⟩
      rw [hreply] at hr
      cases hr
      rw [hcode]
      decide
  have hwrote : (step c st e).store = wrote c st e name version k := hstore
  have hindex := index_wrote h hlist hfits hcareful.clock (e := e)
  have hk : k ≠ 2 ∧ k ≠ 3 := by
    rcases hend with ⟨-, rfl, -⟩ | ⟨hcut, -⟩
    · decide
    · have hcare := hcareful.cut
      rw [hcut] at hcare
      exact ⟨fun h0 => hcare.1 (by rw [h0]), fun h0 => hcare.2 (by rw [h0])⟩
  rw [hwrote]
  refine ⟨inStep_wrote h hd he hasks.package hlist hside hfits hcareful.clock hk, ?_⟩
  constructor
  · intro base hbase
    have hother : base ≠ baseName name version := by
      rintro rfl
      rw [hhas] at hbase
      cases hbase
    obtain ⟨-, hget, hhas'⟩ := wrote_others c st e name version k hother
    rw [hwrote]
    exact ⟨hhas'.trans hbase, hget⟩
  · intro reply hr h200 h201
    rcases hend with ⟨-, -, reply', hr', hcode⟩ | ⟨-, hnone⟩
    · rw [hr'] at hr
      cases hr
      exact absurd hcode h201
    · rw [hnone] at hr
      cases hr
  · intro reply hr _
    rcases hend with ⟨-, rfl, -⟩ | ⟨-, hnone⟩
    · obtain ⟨-, hperm, -⟩ := hindex 1
      rw [hwrote]
      refine ⟨name, version, hasks, wrote_pkg c st e name version 4, ?_, ?_⟩
      · have hfilter := hperm.filter (isNamed name version)
        rw [filter_named_next] at hfilter
        exact List.perm_singleton.1 hfilter
      · intro x hx hname
        apply hperm.symm.subset
        apply List.mem_append_left
        unfold idxRemove
        rw [List.mem_filter, hname]
        exact ⟨hx, rfl⟩
    · rw [hnone] at hr
      cases hr
  · rw [hwrote]
    rcases Nat.lt_or_ge k 4 with hlt | hge
    · left
      refine ⟨wrote_index_old c st e name version k (by omega), ?_⟩
      intro reply hr
      rcases hend with ⟨-, rfl, -⟩ | ⟨-, hnone⟩
      · omega
      · rw [hnone] at hr
        cases hr
    · right
      obtain ⟨j, rfl⟩ : ∃ j, k = j + 4 := ⟨k - 4, by omega⟩
      exact (hindex j).2.2

end Step

/-! ## Runs -/

section Run

variable [LawfulRegStore T] {c} {es : List Upload}

/-- At the end of a run: in step, with the index it began with or a greater serial. -/
theorem run_keeps (hd : Distinct c es) (hcareful : ∀ e ∈ es, Careful e) {l : List Upload}
    (hl : ∀ e ∈ l, e ∈ es) {st : T} (h : InStep c es st)
    (hserial : (metaOf st).serial + l.length < 9223372036854775808) :
    InStep c es (run c st l) ∧ (metaOf (run c st l)).serial ≤ (metaOf st).serial + l.length ∧
      (storeGet (run c st l) idxPath = storeGet st idxPath ∨
        (metaOf st).serial < (metaOf (run c st l)).serial) := by
  induction l generalizing st with
  | nil => exact ⟨h, by rw [List.length_nil]; exact Int.le_of_eq (Int.add_zero _).symm, Or.inl rfl⟩
  | cons e l ih =>
    rw [List.length_cons] at hserial ⊢
    have he := hl e List.mem_cons_self
    obtain ⟨hin, hkept⟩ := step_keeps h hd he (hcareful e he) (by omega)
    have hnext : storeGet (step c st e).store idxPath = storeGet st idxPath ∨
        (metaOf (step c st e).store).serial = (metaOf st).serial + 1 :=
      hkept.serial.imp_left And.left
    have hsame : storeGet (step c st e).store idxPath = storeGet st idxPath →
        (metaOf (step c st e).store).serial = (metaOf st).serial := by
      intro heq
      unfold metaOf
      rw [heq]
    have hbound : (metaOf (step c st e).store).serial ≤ (metaOf st).serial + 1 := by
      rcases hnext with heq | heq
      · have := hsame heq
        omega
      · exact Int.le_of_eq heq
    obtain ⟨hrun, hle, hmono⟩ := ih (fun a ha => hl a (List.mem_cons_of_mem e ha)) hin (by omega)
    refine ⟨hrun, ?_, ?_⟩
    · show (metaOf (run c (step c st e).store l)).serial ≤ _
      omega
    · show storeGet (run c (step c st e).store l) idxPath = _ ∨
        _ < (metaOf (run c (step c st e).store l)).serial
      rcases hnext with heq | heq <;> rcases hmono with hend | hend
      · exact Or.inl (hend.trans heq)
      · exact Or.inr (by rw [← hsame heq]; exact hend)
      · right
        have hserial' : (metaOf (run c (step c st e).store l)).serial =
            (metaOf (step c st e).store).serial := by
          unfold metaOf
          rw [hend]
        omega
      · exact Or.inr (by omega)

/-- No published version is replaced or lost, in any run of careful uploads. -/
theorem uploads_keep (hd : Distinct c es) (hcareful : ∀ e ∈ es, Careful e) {st : T}
    (h : InStep c es st) (hserial : (metaOf st).serial + es.length < 9223372036854775808)
    (done : List Upload) (e : Upload) (rest : List Upload) (hes : es = done ++ e :: rest) :
    Kept c (run c st done) e ∧
      ∀ earlier, earlier <+: done →
        (storeGet (run c st earlier) idxPath = storeGet (step c (run c st done) e).store idxPath ∨
          (metaOf (run c st earlier)).serial < (metaOf (step c (run c st done) e).store).serial) ∧
        (∀ reply, (step c (run c st done) e).reply = some reply → reply.status = 201 →
          (metaOf (run c st earlier)).serial < (metaOf (step c (run c st done) e).store).serial) := by
  have hlen : es.length = done.length + (rest.length + 1) := by
    rw [hes, List.length_append, List.length_cons]
  have hmem : ∀ x ∈ done, x ∈ es := by
    intro x hx
    rw [hes]
    exact List.mem_append_left _ hx
  have he : e ∈ es := by
    rw [hes]
    exact List.mem_append_right _ List.mem_cons_self
  obtain ⟨hin, hle, -⟩ := run_keeps hd hcareful hmem h (by omega)
  obtain ⟨-, hkept⟩ := step_keeps hin hd he (hcareful e he) (by omega)
  refine ⟨hkept, ?_⟩
  rintro earlier ⟨later, rfl⟩
  -- from the earlier state, the rest of the run and this step
  rw [List.length_append] at hlen
  obtain ⟨hin0, hle0, -⟩ := run_keeps hd hcareful
    (fun x hx => hmem x (List.mem_append_left later hx)) h (by omega)
  have happend : run c st (earlier ++ later) = run c (run c st earlier) later := by
    unfold run
    rw [List.foldl_append]
  obtain ⟨-, -, hmono⟩ := run_keeps hd hcareful
    (fun x hx => hmem x (List.mem_append_right earlier hx)) hin0 (by omega)
  rw [← happend] at hmono
  have hserial0 : (metaOf (run c st earlier)).serial ≤ (metaOf (run c st (earlier ++ later))).serial := by
    rcases hmono with heq | hlt
    · unfold metaOf
      rw [heq]
    · exact Int.le_of_lt hlt
  rcases hkept.serial with ⟨hsame, hnot⟩ | hnext
  · have hmeta : (metaOf (step c (run c st (earlier ++ later)) e).store).serial =
        (metaOf (run c st (earlier ++ later))).serial := by
      unfold metaOf
      rw [hsame]
    refine ⟨?_, fun reply hr hcode => absurd hcode (hnot reply hr)⟩
    rcases hmono with heq | hlt
    · exact Or.inl (heq.symm.trans hsame.symm)
    · exact Or.inr (by omega)
  · exact ⟨Or.inr (by omega), fun _ _ _ => by omega⟩

end Run

end Runs

/-! ## A registry of one package -/

/-- A registry as the list of its files, the last put first. -/
abbrev Files := List (Str × List Byte)

instance : RegStore Files where
  storeGet s p := ((s.find? fun f => f.1 == p).map Prod.snd).getD []
  storeHas s p := s.any fun f => f.1 == p
  storePut s p b := (p, b) :: s

instance : LawfulRegStore Files where
  get_put_self s p b := by
    show (((((p, b) :: s).find? fun f => f.1 == p).map Prod.snd).getD [] : List Byte) = b
    simp
  get_put_other s p q b h := by
    show (((((p, b) :: s).find? fun f => f.1 == q).map Prod.snd).getD [] : List Byte) = _
    have hskip : ((p == q) : Bool) = false := beq_eq_false_iff_ne.2 h.symm
    simp only [List.find?_cons, hskip]
    rfl
  has_put_self s p b := by
    show ((p, b) :: s).any (fun f => f.1 == p) = true
    rw [List.any_cons, beq_self_eq_true, Bool.true_or]
  has_put_other s p q b h := by
    show ((p, b) :: s).any (fun f => f.1 == q) = s.any fun f => f.1 == q
    rw [List.any_cons, beq_eq_false_iff_ne.2 h.symm, Bool.false_or]

theorem length_zeroHash : (List.replicate 32 (0 : Byte)).length = 32 := rfl

/-- Every signature verifies, every hash is zeros. -/
def plainCrypto : Crypto where
  contentHash _ := ⟨List.replicate 32 0, length_zeroHash⟩
  verifySig _ _ _ := true
  pkgSign _ _ := []

/-- An archive of one file, the manifest of version 1 of `a`. -/
def archiveA : List Byte :=
  archiveMagic ++ [1, 0, 0, 0, 10, 0] ++ bytesOf "resid.toml".toList ++ [16, 0, 0, 0, 0, 0, 0, 0] ++
    bytesOf "name=a\nversion=1".toList

def uploadA (cut : Option Nat) : Upload where
  cfg := ⟨some [⟨"k.pub".toList, false, []⟩], []⟩
  req := ⟨"/pkg/a-1.resid-pkg".toList,
    Finmap.insert "x-resid-signature".toList "00".toList ∅, archiveA⟩
  now := 0
  cut := cut

/-- The package in the archive, the room for its serial, and a run with an interrupted upload. -/
theorem archiveA_runs :
    packageOf archiveA = some ("a".toList, "1".toList) ∧
    (metaOf ([] : Files)).serial + [uploadA none].length < 9223372036854775808 ∧
    let st : Files := run plainCrypto [] [uploadA (some 2)]
    let out := step plainCrypto st (uploadA none)
    out.reply.map HttpReply.status = some 200 ∧ indexOf out.store = [] := by
  decide +kernel

theorem uploads_keep_one : Kept plainCrypto ([] : Files) (uploadA none) := by
  have hcareful : ∀ e ∈ [uploadA none], Careful e := by
    intro e he
    rw [List.mem_singleton.1 he]
    constructor
    · intro name version hpackage _ _
      have hsame := archiveA_runs.1.symm.trans hpackage
      cases hsame
      decide
    · exact ⟨by decide, by decide⟩
    · decide
  have hdistinct : Distinct plainCrypto [uploadA none] := by
    intro e he e' he' _
    rw [List.mem_singleton.1 he, List.mem_singleton.1 he']
  have hstep : InStep plainCrypto [uploadA none] ([] : Files) := by
    constructor
    · decide
    · intro e _ name version _ hside
      exact absurd hside.symm (hashHex_ne plainCrypto e.req.body)
  exact (uploads_keep hdistinct hcareful hstep archiveA_runs.2.1 [] (uploadA none) [] rfl).1

/-- Interrupted after the hash and sent again, an archive is answered 200 and never listed. -/
theorem upload_unlisted :
    let st : Files := run plainCrypto [] [uploadA (some 2)]
    let out := step plainCrypto st (uploadA none)
    out.reply.map HttpReply.status = some 200 ∧ indexOf out.store = [] :=
  archiveA_runs.2.2

end Registry
