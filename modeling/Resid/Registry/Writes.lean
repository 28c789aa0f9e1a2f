import Resid.Registry.Upload

/-!
# The writes of an upload

An upload that is not refused puts five files, in this order: archive, hash, signature, index
and the index's signature.  An upload that is interrupted puts the first `k` of them; that is
what the same code does over a store that takes `k` more writes.

    a checked archive: published already, refused, or all five          (uploadNew_cases)
    step: the store is as it was, or the first `k` of the five were put (step_cases)
-/

namespace Registry

open Runtime Http RegStore

/-! ## Interrupted uploads -/

/-- A store that takes `left` more writes. -/
structure Cut (T : Type) where
  store : T
  left : Nat

instance (T : Type) [RegStore T] : RegStore (Cut T) where
  storeGet s p := storeGet s.store p
  storeHas s p := storeHas s.store p
  storePut s p b := if s.left = 0 then s else ⟨storePut s.store p b, s.left - 1⟩

/-- One upload request: the registry's configuration and clock, the request, and after how many
writes the process is interrupted, if it is. -/
structure Upload where
  cfg : UploadCfg
  req : PutRequest
  now : Int
  cut : Option Nat

section Steps

variable {T : Type} [RegStore T] (c : Crypto)

def step (st : T) (e : Upload) : Uploaded T :=
  match e.cut with
  | none => registryUpload c st e.cfg e.req e.now
  | some k => ⟨(registryUpload c (Cut.mk st k) e.cfg e.req e.now).store.store, none⟩

def run (st : T) (es : List Upload) : T := es.foldl (fun st e => (step c st e).store) st

/-! ## Files of a registry -/

def putAll (st : T) (ws : List (Str × List Byte)) : T :=
  ws.foldl (fun s w => storePut s w.1 w.2) st

def hashHex (body : List Byte) : Str := hexEncode (c.contentHash body).val

def indexOf (st : T) : List IdxEntry := parseIndexText (bytesToAscii (storeGet st idxPath))

def metaOf (st : T) : IdxMeta := idxMeta (bytesToAscii (storeGet st idxPath))

def sidecar (st : T) (base : Str) : Str := strTrim (bytesToAscii (storeGet st (shaPath base)))

def baseName (name version : Str) : Str := name ++ "-".toList ++ version

/-- The package an archive's manifest names. -/
def packageOf (body : List Byte) : Option (Str × Str) :=
  (archiveManifest body).map fun toml =>
    (manifestField toml "name".toList, manifestField toml "version".toList)

/-- A publisher key of the registry signs the archive. -/
def signedBy (u : UploadCfg) (r : PutRequest) : Bool :=
  u.keyring.elim false fun ks => uploadSigned c (hashHex c r.body)
    (hexDecode (strTrim ((r.headers.lookup "x-resid-signature".toList).getD []))) ks

/-- The text of the next index. -/
def nextIndex (old : List Byte) (name version hash : Str) (now : Int) : Str :=
  indexText (idxRemove (parseIndexText (bytesToAscii old)) name version ++
    [⟨name, version, hash⟩]) ⟨(idxMeta (bytesToAscii old)).serial + 1, now + idxTtl⟩

/-- What an upload puts, in this order. -/
def newWrites (old : List Byte) (u : UploadCfg) (r : PutRequest) (name version : Str)
    (now : Int) : List (Str × List Byte) :=
  let base := baseName name version
  let sig := hexDecode (strTrim ((r.headers.lookup "x-resid-signature".toList).getD []))
  let text := nextIndex old name version (hashHex c r.body) now
  [(pkgPath base, r.body), (shaPath base, bytesOf (hashHex c r.body ++ "\n".toList)),
    (sigPath base, bytesOf (hexEncode sig)), (idxPath, bytesOf text),
    (idxSigPath, bytesOf (hexEncode (c.pkgSign u.seed
      (hexEncode (c.contentHash (bytesOf text)).val))))]

theorem putAll_cons (st : T) (w : Str × List Byte) (ws : List (Str × List Byte)) :
    putAll st (w :: ws) = putAll (storePut st w.1 w.2) ws := rfl

/-- A store that takes `k` more writes takes the first `k`. -/
theorem putAll_cut (st : T) (k : Nat) (ws : List (Str × List Byte)) :
    (putAll (Cut.mk st k) ws).store = putAll st (ws.take k) := by
  induction ws generalizing st k with
  | nil =>
    rw [List.take_nil]
    rfl
  | cons w ws ih =>
    cases k with
    | zero => exact ih st 0
    | succ k => exact ih (storePut st w.1 w.2) k

theorem get_putAll [LawfulRegStore T] (st : T) {ws : List (Str × List Byte)} {p : Str}
    (h : ∀ w ∈ ws, w.1 ≠ p) : storeGet (putAll st ws) p = storeGet st p := by
  induction ws generalizing st with
  | nil => rfl
  | cons w ws ih =>
    rw [putAll_cons, ih _ fun v hv => h v (List.mem_cons_of_mem w hv)]
    exact LawfulRegStore.get_put_other st w.2 (h w List.mem_cons_self).symm

/-- What was last put at a path. -/
theorem get_putAll_last [LawfulRegStore T] (st : T) (pre post : List (Str × List Byte)) {p : Str}
    (b : List Byte) (h : ∀ w ∈ post, w.1 ≠ p) :
    storeGet (putAll st (pre ++ (p, b) :: post)) p = b := by
  have hsplit : putAll st (pre ++ (p, b) :: post) = putAll (storePut (putAll st pre) p b) post := by
    unfold putAll
    rw [List.foldl_append, List.foldl_cons]
  rw [hsplit, get_putAll _ h]
  exact LawfulRegStore.get_put_self _ p b

theorem has_putAll [LawfulRegStore T] (st : T) {ws : List (Str × List Byte)} {p : Str}
    (h : ∀ w ∈ ws, w.1 ≠ p) : storeHas (putAll st ws) p = storeHas st p := by
  induction ws generalizing st with
  | nil => rfl
  | cons w ws ih =>
    rw [putAll_cons, ih _ fun v hv => h v (List.mem_cons_of_mem w hv)]
    exact LawfulRegStore.has_put_other st w.2 (h w List.mem_cons_self).symm

/-! ## Paths -/

/-- Paths of different kinds of files differ: their ends do. -/
theorem ne_of_ends {a b s t : Str} (h : s.getLast? ≠ t.getLast?) (hs : s ≠ []) (ht : t ≠ []) :
    a ++ s ≠ b ++ t := by
  intro heq
  apply h
  have hlast := congrArg List.getLast? heq
  rwa [List.getLast?_append_of_ne_nil _ hs, List.getLast?_append_of_ne_nil _ ht] at hlast

theorem pkgPath_ne_shaPath (a b : Str) : pkgPath a ≠ shaPath b :=
  ne_of_ends (by decide) (by decide) (by decide)

theorem pkg_ne_sig (a b : Str) : a ++ ".resid-pkg".toList ≠ b ++ ".resid-sig".toList := by
  intro h
  have hlen : ".resid-pkg".toList.length = ".resid-sig".toList.length := by decide
  exact absurd (List.append_inj' h hlen).2 (by decide)

theorem pkgPath_ne_sigPath (a b : Str) : pkgPath a ≠ sigPath b := pkg_ne_sig _ _

theorem pkgPath_ne_idxPath (a : Str) : pkgPath a ≠ idxPath := by
  have hidx : idxPath = "pkg/index".toList ++ ".resid-idx".toList := rfl
  rw [hidx]
  exact ne_of_ends (by decide) (by decide) (by decide)

theorem pkgPath_ne_idxSigPath (a : Str) : pkgPath a ≠ idxSigPath := by
  have hidx : idxSigPath = "pkg/index".toList ++ ".resid-sig".toList := rfl
  rw [hidx]
  exact pkg_ne_sig _ _

theorem pkgPath_inj {a b : Str} (h : pkgPath a = pkgPath b) : a = b :=
  List.append_cancel_left (List.append_cancel_right h)

theorem shaPath_ne_sigPath (a b : Str) : shaPath a ≠ sigPath b :=
  ne_of_ends (by decide) (by decide) (by decide)

theorem shaPath_ne_idxPath (a : Str) : shaPath a ≠ idxPath := by
  have hidx : idxPath = "pkg/index".toList ++ ".resid-idx".toList := rfl
  rw [hidx]
  exact ne_of_ends (by decide) (by decide) (by decide)

theorem shaPath_ne_idxSigPath (a : Str) : shaPath a ≠ idxSigPath := by
  have hidx : idxSigPath = "pkg/index".toList ++ ".resid-sig".toList := rfl
  rw [hidx]
  exact ne_of_ends (by decide) (by decide) (by decide)

theorem shaPath_inj {a b : Str} (h : shaPath a = shaPath b) : a = b :=
  List.append_cancel_left (List.append_cancel_right h)

theorem sigPath_ne_idxPath (a : Str) : sigPath a ≠ idxPath := by
  have hidx : idxPath = "pkg/index".toList ++ ".resid-idx".toList := rfl
  rw [hidx]
  exact ne_of_ends (by decide) (by decide) (by decide)

/-! ## What an upload does -/

/-- The request asks to publish this package under a key of the keyring. -/
structure Asks (u : UploadCfg) (r : PutRequest) (name version : Str) : Prop where
  path : uploadBase r.path = some (baseName name version)
  signed : signedBy c u r = true
  package : packageOf r.body = some (name, version)
  named : name ≠ [] ∧ version ≠ []

omit [RegStore T] in
theorem uploaded_refused (st : T) {code : Int} (msg : Str) (h200 : code ≠ 200)
    (h201 : code ≠ 201) : (uploaded st code msg).store = st ∧
      ∀ reply, (uploaded st code msg).reply = some reply →
        reply.status ≠ 200 ∧ reply.status ≠ 201 := by
  refine ⟨rfl, ?_⟩
  intro reply hreply
  cases hreply
  exact ⟨h200, h201⟩

/-- A request is refused with the store as it was, or comes to `uploadNew`. -/
theorem registryUpload_asks (st : T) (u : UploadCfg) (r : PutRequest) (now : Int) :
    ((registryUpload c st u r now).store = st ∧
      ∀ reply, (registryUpload c st u r now).reply = some reply →
        reply.status ≠ 200 ∧ reply.status ≠ 201) ∨
    ∃ name version, Asks c u r name version ∧
      registryUpload c st u r now = uploadNew c st u r.body
        (hexDecode (strTrim ((r.headers.lookup "x-resid-signature".toList).getD [])))
        name version (baseName name version) now := by
  unfold registryUpload
  cases hbase : uploadBase r.path with
  | none => exact Or.inl (uploaded_refused st _ (by decide) (by decide))
  | some base =>
    simp only
    split_ifs with hsig hknown
    · exact Or.inl (uploaded_refused st _ (by decide) (by decide))
    · exact Or.inl (uploaded_refused st _ (by decide) (by decide))
    cases htoml : archiveManifest r.body with
    | none =>
      left
      refine ⟨rfl, ?_⟩
      intro reply hreply
      cases hreply
    | some toml =>
      simp only
      split_ifs with hnamed hbase'
      · exact Or.inl (uploaded_refused st _ (by decide) (by decide))
      · exact Or.inl (uploaded_refused st _ (by decide) (by decide))
      · right
        have hsame : manifestField toml "name".toList ++ "-".toList ++
            manifestField toml "version".toList = base := not_not.1 hbase'
        refine ⟨_, _, ⟨?_, ?_, ?_, not_or.1 hnamed⟩, ?_⟩
        · rw [hbase, ← hsame]
          rfl
        · unfold signedBy hashHex
          simpa using hknown
        · unfold packageOf
          rw [htoml]
          rfl
        · rw [← hsame]
          rfl

/-- A checked archive: published already, refused, or put with the next index. -/
theorem uploadNew_cases (st : T) (u : UploadCfg) (r : PutRequest) (name version : Str) (now : Int)
    (hserial : CheckedInt.Fits 64 ((metaOf st).serial + 1))
    (hnow : CheckedInt.Fits 64 (now + idxTtl))
    (hidx : storeGet (putAll st ((newWrites c (storeGet st idxPath) u r name version now).take 3))
      idxPath = storeGet st idxPath) :
    let out := uploadNew c st u r.body
      (hexDecode (strTrim ((r.headers.lookup "x-resid-signature".toList).getD [])))
      name version (baseName name version) now
    (out.store = st ∧ ∀ reply, out.reply = some reply → reply.status ≠ 200 ∧ reply.status ≠ 201) ∨
    (sidecar st (baseName name version) = hashHex c r.body ∧ out.store = st ∧
      ∃ reply, out.reply = some reply ∧ reply.status = 200) ∨
    (sidecar st (baseName name version) = [] ∧
      storeHas st (pkgPath (baseName name version)) = false ∧
      out.store = putAll st (newWrites c (storeGet st idxPath) u r name version now) ∧
      ∃ reply, out.reply = some reply ∧ reply.status = 201) := by
  intro out
  have hout : out = uploadNew c st u r.body
      (hexDecode (strTrim ((r.headers.lookup "x-resid-signature".toList).getD [])))
      name version (baseName name version) now := rfl
  unfold uploadNew at hout
  simp only at hout
  split_ifs at hout with hsame hother hhas
  · refine Or.inr (Or.inl ⟨hsame, ?_, ?_⟩)
    · rw [hout]
      rfl
    · rw [hout]
      exact ⟨_, rfl, rfl⟩
  · left
    rw [hout]
    exact uploaded_refused st _ (by decide) (by decide)
  · left
    rw [hout]
    exact uploaded_refused st _ (by decide) (by decide)
  · right
    right
    refine ⟨not_not.1 hother, by simpa using hhas, ?_⟩
    -- the index is still the one before the three files
    unfold indexMaintain indexPut at hout
    simp only at hout
    have hidx' : storeGet (storePut (storePut (storePut st (pkgPath (baseName name version)) r.body)
        (shaPath (baseName name version)) (bytesOf (hashHex c r.body ++ "\n".toList)))
        (sigPath (baseName name version)) (bytesOf (hexEncode (hexDecode
          (strTrim ((r.headers.lookup "x-resid-signature".toList).getD [])))))) idxPath =
        storeGet st idxPath := hidx
    unfold hashHex at hidx'
    have hadd : CheckedInt.add 64 (idxMeta (bytesToAscii (storeGet st idxPath))).serial 1 =
        some ((metaOf st).serial + 1) := CheckedInt.add_of_fits hserial
    rw [hidx', hadd, CheckedInt.add_of_fits hnow] at hout
    rw [hout]
    exact ⟨rfl, _, rfl, rfl⟩

/-! ## One step -/

/-- The paths of the first three files are not the index's. -/
theorem idx_newWrites [LawfulRegStore T] (st : T) (old : List Byte) (u : UploadCfg) (r : PutRequest)
    (name version : Str) (now : Int) (k : Nat) :
    storeGet (putAll st (((newWrites c old u r name version now).take 3).take k)) idxPath =
      storeGet st idxPath := by
  apply get_putAll
  intro w hw
  have hmem : w ∈ (newWrites c old u r name version now).take 3 := List.mem_of_mem_take hw
  unfold newWrites at hmem
  simp only [List.take_succ_cons, List.take_zero, List.mem_cons, List.not_mem_nil, or_false] at hmem
  rcases hmem with rfl | rfl | rfl
  · exact pkgPath_ne_idxPath _
  · exact shaPath_ne_idxPath _
  · exact sigPath_ne_idxPath _

/-- A step leaves the store as it was and is answered neither 200 nor 201, or finds the archive
published, or puts the first `k` of its files: all five when it is not interrupted. -/
theorem step_cases [LawfulRegStore T] (st : T) (e : Upload)
    (hserial : CheckedInt.Fits 64 ((metaOf st).serial + 1))
    (hnow : CheckedInt.Fits 64 (e.now + idxTtl)) :
    ((step c st e).store = st ∧ ∀ reply, (step c st e).reply = some reply →
      reply.status ≠ 200 ∧ reply.status ≠ 201) ∨
    ∃ name version, Asks c e.cfg e.req name version ∧
      ((sidecar st (baseName name version) = hashHex c e.req.body ∧ (step c st e).store = st ∧
          ∃ reply, (step c st e).reply = some reply ∧ reply.status = 200) ∨
       (sidecar st (baseName name version) = [] ∧
          storeHas st (pkgPath (baseName name version)) = false ∧
          ∃ k, (step c st e).store = putAll st
              ((newWrites c (storeGet st idxPath) e.cfg e.req name version e.now).take k) ∧
            ((e.cut = none ∧ k = 5 ∧ ∃ reply, (step c st e).reply = some reply ∧
                reply.status = 201) ∨
              (e.cut = some k ∧ (step c st e).reply = none)))) := by
  unfold step
  cases hcut : e.cut with
  | none =>
    simp only
    rcases registryUpload_asks c st e.cfg e.req e.now with hrefused | ⟨name, version, hasks, hnew⟩
    · exact Or.inl hrefused
    rw [hnew]
    have hidx := idx_newWrites c st (storeGet st idxPath) e.cfg e.req name version e.now 3
    rcases uploadNew_cases c st e.cfg e.req name version e.now hserial hnow hidx with
      hrefused | ⟨hsame, hstore, hreply⟩ | ⟨hnone, hhas, hstore, hreply⟩
    · exact Or.inl hrefused
    · exact Or.inr ⟨name, version, hasks, Or.inl ⟨hsame, hstore, hreply⟩⟩
    · refine Or.inr ⟨name, version, hasks, Or.inr ⟨hnone, hhas, 5, ?_, Or.inl ⟨trivial, rfl, hreply⟩⟩⟩
      rw [hstore]
      rfl
  | some k =>
    simp only
    have hquiet : ∀ reply, (none : Option HttpReply) = some reply →
        reply.status ≠ 200 ∧ reply.status ≠ 201 := by
      intro reply hreply
      cases hreply
    rcases registryUpload_asks c (Cut.mk st k) e.cfg e.req e.now with
      ⟨hstore, -⟩ | ⟨name, version, hasks, hnew⟩
    · left
      rw [hstore]
      exact ⟨rfl, hquiet⟩
    rw [hnew]
    -- the index it reads is the one before, however many of the first three writes it took
    have hidx : storeGet (putAll (Cut.mk st k)
        ((newWrites c (storeGet (Cut.mk st k) idxPath) e.cfg e.req name version e.now).take 3))
        idxPath = storeGet (Cut.mk st k) idxPath := by
      show storeGet (putAll (Cut.mk st k) _).store idxPath = storeGet st idxPath
      rw [putAll_cut]
      exact idx_newWrites c st (storeGet st idxPath) e.cfg e.req name version e.now k
    rcases uploadNew_cases c (Cut.mk st k) e.cfg e.req name version e.now hserial hnow hidx with
      ⟨hstore, -⟩ | ⟨-, hstore, -⟩ | ⟨hnone, hhas, hstore, -⟩
    · left
      rw [hstore]
      exact ⟨rfl, hquiet⟩
    · left
      rw [hstore]
      exact ⟨rfl, hquiet⟩
    · refine Or.inr ⟨name, version, hasks, Or.inr ⟨hnone, hhas, k, ?_, Or.inr ⟨rfl, trivial⟩⟩⟩
      rw [hstore, putAll_cut]
      rfl

end Steps

end Registry
