import Resid.Package.Lock
import Resid.Runtime.Text
import Resid.Package.LockText

/-!
# Resolving version dependencies

Each dependency that names a version is looked up in the lock, fetched from the registry,
checked, and written to the lock.

## Algorithm

A pin of another version fails.  The archive's hash is compared with the pin's, with the
registry's sidecar and with the signed index or a signature; the extracted package must be
the one that was asked for.  The first failure ends the run.
-/

namespace Package

open Runtime

/-- SHA-256 of an archive. -/
def Digest : Type := { b : List Byte // b.length = 32 }

structure Fetch where
  ok : Bool
  err : Str
  bytes : List Byte
  text : Str

/-- The package an extracted archive's manifest names. -/
structure PackageId where
  name : Str
  version : Str

/-- What the resolution of a dependency reads outside the manifest and the lock: the registry,
the trust policy's signed index and its verdict, and the cache directory. -/
structure Registry where
  configured : Bool
  label : Str
  idxRequired : Bool
  idxEntries : List LockEntry
  fetchArtifact : (name version suffix : Str) → Fetch
  sha256Bytes : List Byte → Digest
  versionTrust : (name version got : Str) → Str
  cacheStray : (cacheDir : Str) → Str
  loadManifest : (cacheDir : Str) → PackageId

/-- A version dependency of a manifest. -/
structure Request where
  name : Str
  version : Str
  rootPkgDir : Str
  reg : Registry

def indexHas (entries : List LockEntry) (name version : Str) : Bool :=
  entries.any fun e => e.name == name && e.version == version

structure CacheResult where
  ok : Bool
  err : Str
  cacheDir : Str
  sha256 : Str

def cacheErr (err : Str) : CacheResult := ⟨false, err, [], []⟩

def depMsg (id msg : Str) : Str := "dependency '".toList ++ id ++ "': ".toList ++ msg

def resolveDepDirVersion (name version : Str) (reg : Registry) (rootPkgDir pinnedSha : Str) :
    CacheResult :=
  let id := name ++ "-".toList ++ version
  let af := reg.fetchArtifact name version ".resid-pkg".toList
  if !af.ok then
    cacheErr (depMsg id ("cannot fetch '".toList ++ id ++ "' from registry ".toList ++
      reg.label ++ ": ".toList ++ af.err))
  else
    let got := hexEncode (reg.sha256Bytes af.bytes).val
    if pinnedSha ≠ [] ∧ pinnedSha ≠ got then
      cacheErr (depMsg id ("LOCKED content hash mismatch (locked ".toList ++ pinnedSha ++
        ", got ".toList ++ got ++ ") - registry archive was modified; ".toList ++
        "update resid.lock deliberately or restore the archive".toList))
    else
      let sf := reg.fetchArtifact name version ".resid-sha256".toList
      let expectHex := if sf.ok then strTrim sf.text else []
      if expectHex ≠ [] ∧ got ≠ expectHex then
        cacheErr (depMsg name ("archive hash mismatch (expected ".toList ++ expectHex ++
          ", got ".toList ++ got ++ ")".toList))
      else
        let terr := reg.versionTrust name version got
        if terr ≠ [] then cacheErr terr
        else
          let cacheDir := rootPkgDir ++ "/target/resid/deps/".toList ++ name ++ "-".toList ++
            version ++ "-".toList ++ strSlice got 0 16
          let stray := reg.cacheStray cacheDir
          if stray ≠ [] then
            cacheErr (depMsg id ("cache directory ".toList ++ cacheDir ++ " holds '".toList ++
              stray ++ "', which its archive does not; ".toList ++
              "delete the directory to extract it again".toList))
          else ⟨true, [], cacheDir, got⟩

/-- A run's state: its first error, the lock file, and the dependencies accepted so far. -/
structure Resolution where
  ok : Bool
  err : Str
  lock : Option Str
  accepted : List LockEntry
deriving DecidableEq

def depError (acc : Resolution) (err : Str) : Resolution := { acc with ok := false, err := err }

def collectDepVersion (r : Request) (acc : Resolution) : Resolution :=
  let id := r.name ++ "-".toList ++ r.version
  if !acc.ok then acc
  else if !r.reg.configured then
    depError acc (depMsg r.name ("version '".toList ++ r.version ++
      "' requested but no [registry] path or url is configured".toList))
  else if r.reg.idxRequired && !indexHas r.reg.idxEntries r.name r.version then
    depError acc ("dependency '".toList ++ id ++
      "' is not listed in the signed registry index".toList)
  else
    let pin := lookupPin acc.lock r.name
    if pin.name ≠ [] ∧ pin.version ≠ r.version then
      depError acc (depMsg r.name ("manifest requires '".toList ++ r.version ++
        "' but resid.lock pins '".toList ++ pin.version ++
        "' - run with an updated manifest to re-lock".toList))
    else
      let pinnedSha := if pin.name = [] then [] else pin.sha256
      let cr := resolveDepDirVersion r.name r.version r.reg r.rootPkgDir pinnedSha
      if !cr.ok then depError acc cr.err
      else
        let got := r.reg.loadManifest cr.cacheDir
        if got.name ≠ r.name ∨ got.version ≠ r.version then
          depError acc ("dependency '".toList ++ id ++ "': archive holds package '".toList ++
            got.name ++ "-".toList ++ got.version ++ "'".toList)
        else
          let entry := ⟨r.name, r.version, cr.sha256⟩
          { acc with lock := some (writeLockEntry acc.lock entry)
                     accepted := acc.accepted ++ [entry] }

/-- The version dependencies in the order in which the manifests are walked. -/
def collectDeps (rs : List Request) (acc : Resolution) : Resolution :=
  rs.foldl (fun acc r => collectDepVersion r acc) acc

def start (lock : Option Str) : Resolution := ⟨true, [], lock, []⟩

/-!
## Pins

A lock is *clean* when no line of it is malformed, no name has two pins and no hash is empty.
From a clean lock, and for requested names and versions that can stand in a line:

    a ∈ accepted → a ∈ the lock's entries      (Kept.accepted)
    p ∈ the first lock's entries → p ∈ the lock's entries      (Kept.pins)

so what is accepted is what is pinned.
-/

/-! ## Clean locks -/

structure Clean (es : List LockEntry) : Prop where
  one : ∀ e ∈ es, ∀ e' ∈ es, e.name = e'.name → e = e'
  hashed : ∀ e ∈ es, e.sha256 ≠ []

structure CleanLock (lock : Option Str) : Prop where
  whole : ∀ text, lock = some text → (parseLock text).ok = true
  clean : Clean (loadExistingLock lock)

variable {name : Str} {lock : Option Str} {es : List LockEntry} {e : LockEntry}

theorem readable_of_words {version : Str} (hname : isName name = true)
    (hversion : isWord version = true) (bytes : List Byte) :
    Readable ⟨name, version, hexEncode bytes⟩ := by
  refine ⟨hname, hversion, isLastWord_of_free (shaTag_append_ne _) ?_⟩
  intro c hc
  rcases List.mem_append.1 hc with hc | hc
  · exact shaTag_free c hc
  · exact isSpace_hexEncode hc

theorem readable_of_clean (h : CleanLock lock) : ∀ e ∈ loadExistingLock lock, Readable e := by
  intro e he
  cases lock with
  | none => cases he
  | some text => exact readable_of_parse (h.whole text rfl) e he

/-! ## Looking up and setting a pin -/

theorem lookupPin_eq (lock : Option Str) (name : Str) :
    lookupPin lock name = lockGet (loadExistingLock lock) name := by
  cases lock <;> rfl

theorem lockGet_of_mem (h : Clean es) (he : e ∈ es) : lockGet es e.name = e := by
  unfold lockGet
  cases hfind : es.find? (fun a => a.name == e.name) with
  | none =>
    rw [List.find?_eq_none] at hfind
    exact absurd (beq_self_eq_true e.name) (hfind e he)
  | some a =>
    have hname : a.name = e.name := by simpa using List.find?_some hfind
    exact h.one a (List.mem_of_find?_eq_some hfind) e he hname

theorem lockGet_of_absent (h : ∀ e ∈ es, e.name ≠ name) : lockGet es name = ⟨[], [], []⟩ := by
  unfold lockGet
  rw [List.find?_eq_none.2]
  · rfl
  · intro e he
    rw [beq_iff_eq]
    exact h e he

/-- The pin found for a name is an entry of that name, or there is none. -/
theorem lockGet_cases (es : List LockEntry) (name : Str) :
    (lockGet es name ∈ es ∧ (lockGet es name).name = name) ∨
      ((∀ e ∈ es, e.name ≠ name) ∧ lockGet es name = ⟨[], [], []⟩) := by
  by_cases h : ∃ e ∈ es, e.name = name
  · left
    unfold lockGet
    cases hfind : es.find? (fun e => e.name == name) with
    | none =>
      obtain ⟨e, he, hname⟩ := h
      rw [List.find?_eq_none] at hfind
      exact absurd (beq_iff_eq.2 hname) (hfind e he)
    | some a => exact ⟨List.mem_of_find?_eq_some hfind, by simpa using List.find?_some hfind⟩
  · right
    have habsent : ∀ e ∈ es, e.name ≠ name := fun e he hname => h ⟨e, he, hname⟩
    exact ⟨habsent, lockGet_of_absent habsent⟩

/-- After a pin is set: that pin, and the others' as they were. -/
theorem mem_lockSet {ne : LockEntry} (hne : ne.name ≠ []) (e : LockEntry) :
    e ∈ lockSet es ne ↔ e = ne ∨ e ∈ es ∧ e.name ≠ ne.name := by
  have hlist : e ∈ (if lockHas es ne.name then lockReplace ne es else es ++ [ne]) ↔
      e = ne ∨ e ∈ es ∧ e.name ≠ ne.name := by
    rcases lockGet_cases es ne.name with ⟨hmem, hname⟩ | ⟨habsent, hget⟩
    · have hhas : lockHas es ne.name = true := by
        unfold lockHas
        rw [hname]
        exact decide_eq_true hne
      rw [if_pos hhas]
      unfold lockReplace
      rw [List.mem_map]
      constructor
      · rintro ⟨a, ha, rfl⟩
        split_ifs with haname
        · exact Or.inl rfl
        · exact Or.inr ⟨ha, haname⟩
      · rintro (rfl | ⟨he, hename⟩)
        · exact ⟨_, hmem, if_pos hname⟩
        · exact ⟨e, he, if_neg hename⟩
    · have hhas : ¬ lockHas es ne.name = true := by
        unfold lockHas
        rw [hget]
        simp
      rw [if_neg hhas, List.mem_append, List.mem_singleton, or_comm]
      apply or_congr_right
      exact ⟨fun he => ⟨he, habsent e he⟩, And.left⟩
  unfold lockSet
  rw [(sortLockEntries_spec _).1.mem_iff]
  exact hlist

theorem clean_lockSet (h : Clean es) {ne : LockEntry} (hne : ne.name ≠ []) (hsha : ne.sha256 ≠ []) :
    Clean (lockSet es ne) := by
  constructor
  · intro e he e' he' hname
    rcases (mem_lockSet hne e).1 he with rfl | ⟨hmem, hother⟩ <;>
      rcases (mem_lockSet hne e').1 he' with rfl | ⟨hmem', hother'⟩
    · rfl
    · exact absurd hname.symm hother'
    · exact absurd hname hother
    · exact h.one e hmem e' hmem' hname
  · intro e he
    rcases (mem_lockSet hne e).1 he with rfl | ⟨hmem, -⟩
    · exact hsha
    · exact h.hashed e hmem

/-! ## Writing a pin -/

/-- The entries of a lock after one is written. -/
theorem entries_writeLockEntry (h : CleanLock lock) (he : Readable e) :
    parseLock (writeLockEntry lock e) =
      ⟨true, [], sortLockEntries (lockSet (loadExistingLock lock) e)⟩ := by
  unfold writeLockEntry
  apply parse_lockToText
  intro a ha
  rcases (mem_lockSet he.name_ne a).1 ha with rfl | ⟨hmem, -⟩
  · exact he
  · exact readable_of_clean h a hmem

theorem mem_writeLockEntry (h : CleanLock lock) (he : Readable e) (a : LockEntry) :
    a ∈ loadExistingLock (some (writeLockEntry lock e)) ↔
      a = e ∨ a ∈ loadExistingLock lock ∧ a.name ≠ e.name := by
  show a ∈ (parseLock (writeLockEntry lock e)).entries ↔ _
  rw [entries_writeLockEntry h he, (sortLockEntries_spec _).1.mem_iff]
  exact mem_lockSet he.name_ne a

theorem cleanLock_write (h : CleanLock lock) (he : Readable e) (hsha : e.sha256 ≠ []) :
    CleanLock (some (writeLockEntry lock e)) := by
  constructor
  · intro text htext
    cases htext
    rw [entries_writeLockEntry h he]
  · have hset := clean_lockSet h.clean he.name_ne hsha
    show Clean (parseLock (writeLockEntry lock e)).entries
    rw [entries_writeLockEntry h he]
    have hmem : ∀ a, a ∈ sortLockEntries (lockSet (loadExistingLock lock) e) ↔
        a ∈ lockSet (loadExistingLock lock) e := fun a => (sortLockEntries_spec _).1.mem_iff
    constructor
    · exact fun a ha b hb => hset.one a ((hmem a).1 ha) b ((hmem b).1 hb)
    · exact fun a ha => hset.hashed a ((hmem a).1 ha)

/-- A write keeps the pin of every other name. -/
theorem lookupPin_write (h : CleanLock lock) (he : Readable e) (hsha : e.sha256 ≠ [])
    (hname : name ≠ e.name) :
    lookupPin (some (writeLockEntry lock e)) name = lookupPin lock name := by
  rw [lookupPin_eq, lookupPin_eq]
  rcases lockGet_cases (loadExistingLock lock) name with ⟨hmem, hget⟩ | ⟨habsent, hget⟩
  · have hkept : lockGet (loadExistingLock lock) name ∈
        loadExistingLock (some (writeLockEntry lock e)) := by
      rw [mem_writeLockEntry h he]
      exact Or.inr ⟨hmem, by rw [hget]; exact hname⟩
    have hfound := lockGet_of_mem (cleanLock_write h he hsha).clean hkept
    rw [hget] at hfound
    exact hfound
  · rw [hget]
    apply lockGet_of_absent
    intro a ha
    rcases (mem_writeLockEntry h he a).1 ha with rfl | ⟨hmem, -⟩
    · exact hname.symm
    · exact habsent a hmem

/-! ## One resolution -/

/-- A fetched archive has a hash, and a pinned hash is it. -/
theorem resolveDepDirVersion_ok {version : Str} {reg : Registry} {dir pinned : Str}
    (h : (resolveDepDirVersion name version reg dir pinned).ok = true) :
    ∃ d : Digest, (resolveDepDirVersion name version reg dir pinned).sha256 = hexEncode d.val ∧
      (pinned = [] ∨ pinned = hexEncode d.val) := by
  refine ⟨reg.sha256Bytes (reg.fetchArtifact name version ".resid-pkg".toList).bytes, ?_⟩
  unfold resolveDepDirVersion at h ⊢
  generalize reg.fetchArtifact name version ".resid-pkg".toList = af at h ⊢
  generalize reg.fetchArtifact name version ".resid-sha256".toList = sf at h ⊢
  simp only at h ⊢
  generalize (if sf.ok = true then strTrim sf.text else []) = expectHex at h ⊢
  split_ifs at h ⊢ with hfetch hpinned hsidecar htrust hstray
  · cases h
  · cases h
  · cases h
  · cases h
  · cases h
  · refine ⟨rfl, ?_⟩
    by_cases hnil : pinned = []
    · exact Or.inl hnil
    · right
      by_contra hother
      exact hpinned ⟨hnil, hother⟩

/-- A resolution leaves the lock as it is, or it writes and accepts an entry that no pin of that
name contradicts. -/
theorem collectDepVersion_cases (r : Request) (s : Resolution) :
    ((collectDepVersion r s).lock = s.lock ∧ (collectDepVersion r s).accepted = s.accepted) ∨
    ∃ d : Digest,
      (collectDepVersion r s).lock =
          some (writeLockEntry s.lock ⟨r.name, r.version, hexEncode d.val⟩) ∧
        (collectDepVersion r s).accepted =
          s.accepted ++ [⟨r.name, r.version, hexEncode d.val⟩] ∧
        ((lookupPin s.lock r.name).name ≠ [] →
          (lookupPin s.lock r.name).version = r.version ∧
            ((lookupPin s.lock r.name).sha256 = [] ∨
              (lookupPin s.lock r.name).sha256 = hexEncode d.val)) := by
  unfold collectDepVersion
  generalize lookupPin s.lock r.name = pin
  simp only
  split_ifs with hok hconfigured hindex hversion hpin hcr hgot hcr hgot
  · exact Or.inl ⟨rfl, rfl⟩
  · exact Or.inl ⟨rfl, rfl⟩
  · exact Or.inl ⟨rfl, rfl⟩
  · exact Or.inl ⟨rfl, rfl⟩
  · exact Or.inl ⟨rfl, rfl⟩
  · exact Or.inl ⟨rfl, rfl⟩
  · right
    obtain ⟨d, hsha, -⟩ := resolveDepDirVersion_ok (by simpa using hcr)
    exact ⟨d, by rw [hsha], by rw [hsha], fun hname => absurd hpin hname⟩
  · exact Or.inl ⟨rfl, rfl⟩
  · exact Or.inl ⟨rfl, rfl⟩
  · right
    obtain ⟨d, hsha, hpinned⟩ := resolveDepDirVersion_ok (by simpa using hcr)
    refine ⟨d, by rw [hsha], by rw [hsha], fun hname => ⟨?_, hpinned⟩⟩
    by_contra hother
    exact hversion ⟨hname, hother⟩

/-! ## Runs -/

/-- What holds in every state of a run from a lock with the entries `es`. -/
structure Kept (es : List LockEntry) (s : Resolution) : Prop where
  lock : CleanLock s.lock
  pins : ∀ p ∈ es, p ∈ loadExistingLock s.lock
  accepted : ∀ a ∈ s.accepted, a ∈ loadExistingLock s.lock

theorem kept_start (h : CleanLock lock) : Kept (loadExistingLock lock) (start lock) :=
  ⟨h, fun _ hp => hp, fun _ ha => absurd ha List.not_mem_nil⟩

theorem kept_step {s : Resolution} (h : Kept es s) {r : Request} (hname : isName r.name = true)
    (hversion : isWord r.version = true) : Kept es (collectDepVersion r s) := by
  rcases collectDepVersion_cases r s with ⟨hlock, haccepted⟩ | ⟨d, hlock, haccepted, hpin⟩
  · constructor
    · rw [hlock]
      exact h.lock
    · rw [hlock]
      exact h.pins
    · rw [hlock, haccepted]
      exact h.accepted
  have hread := readable_of_words hname hversion d.val
  have hsha : hexEncode d.val ≠ [] := by
    apply hexEncode_ne
    intro hnil
    have hlen := d.property
    rw [hnil] at hlen
    cases hlen
  -- an entry of that name is the pin that was compared
  have hstays : ∀ a ∈ loadExistingLock s.lock,
      a ∈ loadExistingLock (some (writeLockEntry s.lock ⟨r.name, r.version, hexEncode d.val⟩)) := by
    intro a ha
    rw [mem_writeLockEntry h.lock hread]
    by_cases hother : a.name = r.name
    · left
      rw [← hother, lookupPin_eq, lockGet_of_mem h.lock.clean ha] at hpin
      obtain ⟨hver, hhash⟩ := hpin (by rw [hother]; exact hread.name_ne)
      obtain ⟨name, version, sha256⟩ := a
      rcases hhash with hnil | hhash
      · exact absurd hnil (h.lock.clean.hashed _ ha)
      · cases hother
        cases hver
        cases hhash
        rfl
    · exact Or.inr ⟨ha, hother⟩
  constructor
  · rw [hlock]
    exact cleanLock_write h.lock hread hsha
  · rw [hlock]
    exact fun p hp => hstays p (h.pins p hp)
  · rw [hlock, haccepted]
    intro a ha
    rcases List.mem_append.1 ha with ha | ha
    · exact hstays a (h.accepted a ha)
    · rw [List.mem_singleton.1 ha, mem_writeLockEntry h.lock hread]
      exact Or.inl rfl

theorem kept_run {rs : List Request}
    (hrs : ∀ r ∈ rs, isName r.name = true ∧ isWord r.version = true) {s : Resolution}
    (h : Kept es s) : Kept es (collectDeps rs s) := by
  induction rs generalizing s with
  | nil => exact h
  | cons r rs ih =>
    obtain ⟨hname, hversion⟩ := hrs r List.mem_cons_self
    apply ih fun a ha => hrs a (List.mem_cons_of_mem r ha)
    exact kept_step h hname hversion

/-! ## Pins hold -/

theorem parseLockLine_entry {line : Str} {n : Nat} {p : LockEntry}
    (h : parseLockLine line n ⟨true, [], []⟩ = ⟨true, [], [p]⟩) :
    lineEntry line = some (some p) := by
  rw [parseLockLine_eq rfl] at h
  cases hline : lineEntry line with
  | none =>
    rw [hline] at h
    cases h
  | some o =>
    rw [hline] at h
    cases o with
    | none => cases h
    | some e =>
      cases h
      rfl

theorem readable_of_free (hne : e.name ≠ [] ∧ e.version ≠ [])
    (hfree : ∀ c ∈ e.name ++ e.version ++ e.sha256, isSpace c = false)
    (hhash : strStartsWith e.name ['#'] = false) : Readable e := by
  refine ⟨isName_iff.2 ⟨isWord_of_free hne.1 fun c hc => hfree c (by simp [hc]), ?_⟩,
    isWord_of_free hne.2 fun c hc => hfree c (by simp [hc]),
    isLastWord_of_free (shaTag_append_ne _) ?_⟩
  · intro c r hc
    refine ⟨hfree c (by simp [hc]), ?_⟩
    rintro rfl
    rw [hc] at hhash
    cases hhash
  · intro c hc
    rcases List.mem_append.1 hc with hc | hc
    · exact shaTag_free c hc
    · exact hfree c (by simp [hc])

/-- Entries without a second pin for a name come out in strictly ascending order. -/
theorem strict_sort (h : es.Pairwise fun a b => a.name ≠ b.name) :
    (sortLockEntries es).Pairwise fun a b => strCmp a.name b.name < 0 := by
  obtain ⟨hperm, hsorted⟩ := sortLockEntries_spec es
  have hdistinct : (sortLockEntries es).Pairwise fun a b => a.name ≠ b.name :=
    (hperm.pairwise_iff fun h => h.symm).2 h
  apply (hsorted.and hdistinct).imp
  rintro a b ⟨hle, hne⟩
  have : strCmp a.name b.name ≠ 0 := fun h0 => hne (eq_of_strCmp h0)
  have : strCmp a.name b.name ≤ 0 := hle
  omega

/-- A lock that is clean, and names and versions that can stand in it: the pins hold. -/
theorem pins_hold {lock : Option Str} (hlock : CleanLock lock) {rs : List Request}
    (hrs : ∀ r ∈ rs, isName r.name = true ∧ isWord r.version = true) :
    (∀ text line n p, lock = some text → line ∈ strSplit text ['\n'] →
        parseLockLine line n ⟨true, [], []⟩ = ⟨true, [], [p]⟩ →
        ∀ a ∈ (collectDeps rs (start lock)).accepted, a.name = p.name → a = p) ∧
    (∀ e, Readable e → e.sha256 ≠ [] → ∀ name, name ≠ e.name →
        lookupPin (some (writeLockEntry (collectDeps rs (start lock)).lock e)) name =
          lookupPin (collectDeps rs (start lock)).lock name) ∧
    (∀ text, (collectDeps rs (start lock)).lock = some text → (parseLock text).ok = true) ∧
    (∀ es : List LockEntry, (es.Pairwise fun a b => a.name ≠ b.name) →
        (∀ e ∈ es, e.name ≠ [] ∧ e.version ≠ []) →
        (∀ e ∈ es, ∀ c ∈ e.name ++ e.version ++ e.sha256, isSpace c = false) →
        (∀ e ∈ es, strStartsWith e.name ['#'] = false) →
        ∃ l, parseLock (lockToText es) = ⟨true, [], l⟩ ∧ l.Perm es ∧
          l.Pairwise fun a b => strCmp a.name b.name < 0) := by
  have hkept := kept_run hrs (kept_start hlock)
  refine ⟨?_, ?_, hkept.lock.whole, ?_⟩
  · intro text line n p htext hline hp a ha hname
    subst htext
    have hentry := mem_of_line (hlock.whole text rfl) hline (parseLockLine_entry hp)
    exact hkept.lock.clean.one a (hkept.accepted a ha) p (hkept.pins p hentry) hname
  · exact fun e he hsha name hname => lookupPin_write hkept.lock he hsha hname
  · intro es hdistinct hne hfree hhash
    refine ⟨sortLockEntries es, ?_, (sortLockEntries_spec es).1, strict_sort hdistinct⟩
    exact parse_lockToText fun e he => readable_of_free (hne e he) (hfree e he) (hhash e he)

theorem length_zeroHash : (List.replicate 32 (0 : Byte)).length = 32 := rfl

/-- A registry that serves any package under a hash of zeros. -/
def plainRegistry (name version : Str) : Registry where
  configured := true
  label := "registry".toList
  idxRequired := false
  idxEntries := []
  fetchArtifact := fun _ _ suffix => ⟨suffix == ".resid-pkg".toList, [], [], []⟩
  sha256Bytes := fun _ => ⟨List.replicate 32 0, length_zeroHash⟩
  versionTrust := fun _ _ _ => []
  cacheStray := fun _ => []
  loadManifest := fun _ => ⟨name, version⟩

def plainRequest (name version : Str) : Request := ⟨name, version, [], plainRegistry name version⟩

theorem pins_hold_one :
    let run := collectDeps [plainRequest "a".toList "2".toList, plainRequest "b".toList "1".toList]
      (start (some "a 1 sha256:00\n".toList))
    ⟨"a".toList, "2".toList, "00".toList⟩ ∉ run.accepted ∧
      lookupPin (some (writeLockEntry run.lock ⟨"c".toList, "3".toList, "11".toList⟩)) "a".toList =
        lookupPin run.lock "a".toList := by
  have hclean : CleanLock (some "a 1 sha256:00\n".toList) := by
    have hparse : parseLock "a 1 sha256:00\n".toList =
        ⟨true, [], [⟨"a".toList, "1".toList, "00".toList⟩]⟩ := by decide +kernel
    constructor
    · intro text htext
      cases htext
      rw [hparse]
    · show Clean (parseLock "a 1 sha256:00\n".toList).entries
      rw [hparse]
      constructor
      · decide
      · decide
  have hnames : ∀ r ∈ [plainRequest "a".toList "2".toList, plainRequest "b".toList "1".toList],
      isName r.name = true ∧ isWord r.version = true := by
    intro r hr
    rcases List.mem_cons.1 hr with rfl | hr
    · decide
    · rw [List.mem_singleton.1 hr]
      decide
  have hline : parseLockLine "a 1 sha256:00".toList 1 ⟨true, [], []⟩ =
      ⟨true, [], [⟨"a".toList, "1".toList, "00".toList⟩]⟩ := by decide +kernel
  obtain ⟨hpins, hother, _⟩ := pins_hold hclean hnames
  constructor
  · intro hmem
    have hpin := hpins _ _ _ _ rfl (by decide) hline _ hmem rfl
    exact absurd hpin (by decide)
  · exact hother _ (by constructor <;> decide) (by decide) _ (by decide)

/-- After a malformed line the pins are not read: the run accepts another version, and what it
writes has lost the other pin too. -/
theorem pins_bypassed :
    let lock := some "not a pin of this lock\na 1 sha256:00\nb 1 sha256:00\n".toList
    let run := collectDeps [plainRequest "a".toList "2".toList] (start lock)
    (parseLock "not a pin of this lock\na 1 sha256:00\nb 1 sha256:00\n".toList).ok = false ∧
      run.ok = true ∧
      parseLockLine "a 1 sha256:00".toList 2 ⟨true, [], []⟩ =
        ⟨true, [], [⟨"a".toList, "1".toList, "00".toList⟩]⟩ ∧
      (∃ a ∈ run.accepted, a.name = "a".toList ∧ a.version = "2".toList) ∧
      "b 1 sha256:00".toList ∉ strSplit (run.lock.getD []) ['\n'] := by
  decide +kernel

end Package
