import Mathlib.Data.List.Nodup
import Resid.Labels.Flow

/-!
# The labels carry what is followed

`Stands v S` says that a label carries the origins in `S` and no others.  One step of the walk
joins labels as sets are united.

    Stands a A → Stands b B → Stands (lvJoin a b) (A ∪ B)                      (Stands.join)
    Stands j J → Stands (lbAt id j t).v J                                        (Stands.at)

`Walked F K t t' E G` says what is left of a part of the body: the names in `K` are bound, `E` is
joined into the result and `G` into the breaks.  An error that a walk meets stays (`lbE_err`), so
one that ends without an error has met none.
-/

namespace Labels

open Runtime

/-! ## Labels as sets of origins -/

structure Stands (v : LbV) (S : Set Origin) : Prop where
  has : ∀ o, v.Has o ↔ o ∈ S
  ext : 0 ≤ v.x ↔ ∃ o ∈ S, o.isSource = true

theorem Stands.congr {v : LbV} {S T : Set Origin} (h : Stands v S) (hST : S = T) : Stands v T :=
  hST ▸ h

theorem stands_in : Stands lvIn ∅ := by
  constructor
  · intro o
    cases o <;> simp [LbV.Has, lvIn]
  · simp [lvIn]

theorem has_join (a b : LbV) (o : Origin) : (lvJoin a b).Has o ↔ a.Has o ∨ b.Has o := by
  cases o <;> simp [LbV.Has, lvJoin]

theorem Stands.join {a b : LbV} {A B : Set Origin} (ha : Stands a A) (hb : Stands b B) :
    Stands (lvJoin a b) (A ∪ B) := by
  constructor
  · intro o
    rw [has_join, ha.has, hb.has, Set.mem_union]
  · have hx : 0 ≤ (lvJoin a b).x ↔ 0 ≤ a.x ∨ 0 ≤ b.x := by
      simp only [lvJoin]
      split_ifs with h
      · exact ⟨Or.inl, fun _ => h⟩
      · exact ⟨Or.inr, fun hor => hor.resolve_left h⟩
    rw [hx, ha.ext, hb.ext]
    simp only [Set.mem_union, or_and_right, exists_or]

theorem Stands.at {j : LbV} {J : Set Origin} (h : Stands j J) (id : Nat) (t : LbT) :
    Stands (lbAt id j t).v J := by
  unfold lbAt
  split_ifs with hx
  · exact h
  · refine ⟨fun o => ?_, ?_⟩
    · rw [← h.has]
      cases o <;> rfl
    · rw [← h.ext]
      constructor
      · intro _
        show 0 ≤ j.x
        omega
      · intro _
        exact Int.natCast_nonneg id

@[simp] theorem lbAt_t (id : Nat) (j : LbV) (t : LbT) : (lbAt id j t).t = t := by
  unfold lbAt
  split_ifs <;> rfl

theorem stands_source (id : Nat) (what : Str) (t : LbT) :
    Stands (lbSource id what t).v {originOf what} := by
  have hk : lbKind what = 1 ∨ lbKind what = 2 := by
    unfold lbKind
    split_ifs
    · exact Or.inr rfl
    · exact Or.inl rfl
  constructor
  · intro o
    rcases hk with hk | hk <;> cases o <;> simp [LbV.Has, lbSource, originOf, hk]
  · constructor
    · intro _
      refine ⟨originOf what, rfl, ?_⟩
      unfold originOf
      split_ifs <;> rfl
    · intro _
      exact Int.natCast_nonneg id

@[simp] theorem lbSource_t (id : Nat) (what : Str) (t : LbT) : (lbSource id what t).t = t := rfl

/-! ## What the code's rule says of each expression -/

def Val (F : Frame) (e : Expr) : Set Origin := {o | Value F False e o}

/-- What reaches one of a list of values. -/
def From (F : Frame) (es : List Expr) : Set Origin := {o | ∃ e ∈ es, Value F False e o}

def Esc (F : Frame) (conds : List Expr) (e : Expr) : Set Origin := {o | Escapes F False conds e o}

/-- What escapes from one of a list of expressions. -/
def EscFrom (F : Frame) (ps : List (List Expr × Expr)) : Set Origin :=
  {o | ∃ p ∈ ps, Escapes F False p.1 p.2 o}

section Sets

variable {F : Frame}

@[simp] theorem from_nil : From F [] = ∅ := by
  ext o
  simp [From]

@[simp] theorem from_cons (e : Expr) (es : List Expr) :
    From F (e :: es) = Val F e ∪ From F es := by
  ext o
  simp [From, Val]

@[simp] theorem from_append (es es' : List Expr) :
    From F (es ++ es') = From F es ∪ From F es' := by
  ext o
  simp [From, or_and_right, exists_or]

@[simp] theorem escFrom_nil : EscFrom F [] = ∅ := by
  ext o
  simp [EscFrom]

@[simp] theorem escFrom_cons (p : List Expr × Expr) (ps : List (List Expr × Expr)) :
    EscFrom F (p :: ps) = Esc F p.1 p.2 ∪ EscFrom F ps := by
  ext o
  simp [EscFrom, Esc]

@[simp] theorem escFrom_append (ps qs : List (List Expr × Expr)) :
    EscFrom F (ps ++ qs) = EscFrom F ps ∪ EscFrom F qs := by
  ext o
  simp [EscFrom, or_and_right, exists_or]

/-- What a name carries. -/
def Named (F : Frame) (d : Nat) : Set Origin :=
  {o | (∃ i, F.params[i]? = some d ∧ o = .param (min i 62)) ∨
    ∃ e, (d, e) ∈ F.binds ∧ Value F False e o}

/-- The parts of a value, one for each way there is. -/
theorem val_eq (F : Frame) (e : Expr) : Val F e =
    {o | ∃ what, acquires F.c e = some what ∧ o = originOf what} ∪
    {o | ∃ s, summaryOf F e = some s ∧ o.isSource = true ∧ s.Has o} ∪
    {o | ∃ d, nameOf e = some d ∧ o ∈ Named F d} ∪
    From F (operands F e) ∪
    {o | ∃ id params body, e = .lambda id params body ∧ o ∈ Esc F [] body} := by
  ext o
  constructor
  · intro h
    cases h with
    | source h => exact Or.inl (Or.inl (Or.inl (Or.inl ⟨_, h, rfl⟩)))
    | summary h1 h2 h3 => exact Or.inl (Or.inl (Or.inl (Or.inr ⟨_, h1, h2, h3⟩)))
    | param h1 h2 => exact Or.inl (Or.inl (Or.inr ⟨_, h1, Or.inl ⟨_, h2, rfl⟩⟩))
    | bound h1 h2 h3 => exact Or.inl (Or.inl (Or.inr ⟨_, h1, Or.inr ⟨_, h2, h3⟩⟩))
    | operand h1 h2 => exact Or.inl (Or.inr ⟨_, h1, h2⟩)
    | drawn h => exact h.elim
    | closure h => exact Or.inr ⟨_, _, _, rfl, h⟩
  · rintro ((((⟨what, h, rfl⟩ | ⟨s, h1, h2, h3⟩) | ⟨d, h1, ⟨i, h2, rfl⟩ | ⟨e', h2, h3⟩⟩) |
      ⟨a, h1, h2⟩) | ⟨id, params, body, rfl, h⟩)
    · exact .source h
    · exact .summary h1 h2 h3
    · exact .param h1 h2
    · exact .bound h1 h2 h3
    · exact .operand h1 h2
    · exact .closure h

/-- An expression that is no call, name or closure has the values of its operands. -/
theorem val_operands {e : Expr} (hacq : acquires F.c e = none) (hsum : summaryOf F e = none)
    (hname : nameOf e = none) (hlam : ∀ id params body, e ≠ .lambda id params body) :
    Val F e = From F (operands F e) := by
  rw [val_eq]
  ext o
  simp [hacq, hsum, hname, hlam]

/-- A source is all there is to the value of an acquiring node without operands. -/
theorem val_source {e : Expr} {what : Str} (hacq : acquires F.c e = some what)
    (hsum : summaryOf F e = none) (hname : nameOf e = none) (hops : operands F e = [])
    (hlam : ∀ id params body, e ≠ .lambda id params body) : Val F e = {originOf what} := by
  rw [val_eq]
  ext o
  simp [hacq, hsum, hname, hops, hlam]

theorem esc_parts {conds : List Expr} {e : Expr} (h : ∀ id a, e ≠ .tryExit id a) :
    Esc F conds e = EscFrom F (parts conds e) := by
  ext o
  constructor
  · intro he
    cases he with
    | value _ => exact absurd rfl (h _ _)
    | cond _ _ => exact absurd rfl (h _ _)
    | part h1 h2 => exact ⟨_, h1, h2⟩
  · rintro ⟨p, h1, h2⟩
    exact .part h1 h2

theorem esc_tryExit (conds : List Expr) (id : Nat) (a : Expr) :
    Esc F conds (.tryExit id a) = Esc F conds a ∪ (Val F a ∪ From F conds) := by
  ext o
  constructor
  · intro he
    cases he with
    | value h => exact Or.inr (Or.inl h)
    | cond h1 h2 => exact Or.inr (Or.inr ⟨_, h1, h2⟩)
    | part h1 h2 =>
      rw [parts, List.mem_singleton, Prod.mk.injEq] at h1
      obtain ⟨rfl, rfl⟩ := h1
      exact Or.inl h2
  · rintro (h | h | ⟨c, h1, h2⟩)
    · exact .part (List.mem_singleton.2 rfl) h
    · exact .value h
    · exact .cond h1 h2

end Sets

/-! ## An error stays -/

theorem err_of_fail {t : LbT} {e : LbErr} (h : (t.fail e).err = none) : t.err = none := by
  unfold LbT.fail at h
  split_ifs at h
  exact h

theorem lbBindKids_err (v : LbV) : ∀ (ks : List Nat) (t : LbT), (lbBindKids v ks t).err = t.err
  | [], _ => rfl
  | k :: ks, t => by
    rw [lbBindKids, lbBindKids_err v ks, lbAt_t]
    rfl

theorem lbLoop_err {walk : LbV → LbT → LbT} {pc : LbV} {t : LbT}
    (hw : ∀ pc t, (walk pc t).err = none → t.err = none) (h : (lbLoop walk pc t).err = none) :
    t.err = none := by
  simp only [lbLoop] at h
  split_ifs at h
  · exact hw pc (t.setBrk lvIn) (hw _ ((walk pc (t.setBrk lvIn)).setBrk lvIn) h)
  · exact hw pc (t.setBrk lvIn) h

theorem lbApply_err {c : LbC} {id f : Nat} {kids : LbT → LbE} {args : BitVec 64 → LbV → LbT → LbE}
    {decides : BitVec 64 → LbT → LbT} {t : LbT}
    (hk : ∀ t, (kids t).t.err = none → t.err = none)
    (ha : ∀ m acc t, (args m acc t).t.err = none → t.err = none)
    (hd : ∀ m t, (decides m t).err = none → t.err = none)
    (h : (lbApply c id f kids args decides t).t.err = none) : t.err = none := by
  unfold lbApply at h
  split at h
  · exact hk _ h
  · rw [lbAt_t] at h
    split_ifs at h with hdec
    · exact ha _ _ _ (hd _ _ h)
    · exact ha _ _ _ h

mutual

theorem lbE_err (c : LbC) : ∀ (e : Expr) (pc : LbV) (t : LbT), (lbE c e pc t).t.err = none →
    t.err = none
  | .lit _, pc, t, h => h
  | .ref id text d, pc, t, h => by
    cases d <;> simpa [lbE] using h
  | .call id text d args, pc, t, h => by
    cases d with
    | builtin =>
      simp only [lbE] at h
      split_ifs at h
      all_goals first
        | exact lbKids_err c args _ _ _ _ h
        | exact lbKids_err c args _ _ _ _ (err_of_fail h)
    | fn f =>
      exact lbApply_err (fun t => lbKids_err c args _ _ _ t)
        (fun m acc t => lbArgs_err c args _ _ _ _ acc t)
        (fun m t => lbDecidesArgs_err c args _ m _ _ t) h
    | binder d => exact lbKids_err c args _ _ _ _ h
    | data d => exact lbKids_err c args _ _ _ _ h
    | unresolved => exact lbKids_err c args _ _ _ _ h
  | .mcall id text d kids, pc, t, h => by
    cases d with
    | fn f =>
      exact lbApply_err (fun t => lbKids_err c kids _ _ _ t)
        (fun m acc t => lbArgs_err c kids _ _ _ _ acc t)
        (fun m t => lbDecidesArgs_err c kids _ m _ _ t) h
    | builtin | binder _ | data _ | unresolved =>
      simp only [lbE] at h
      split at h <;> exact lbKids_err c kids _ _ _ _ h
  | .named id text a, pc, t, h => by
    simp only [lbE, lbAt_t] at h
    exact lbE_err c a _ _ h
  | .choose id cond a none, pc, t, h => by
    simp only [lbE, lbAt_t] at h
    exact lbE_err c cond _ _ (lbE_err c a _ _ h)
  | .choose id cond a (some b), pc, t, h => by
    simp only [lbE, lbAt_t] at h
    exact lbE_err c cond _ _ (lbE_err c a _ _ (lbE_err c b _ _ h))
  | .matchArms id scrut arms, pc, t, h => by
    simp only [lbE] at h
    exact lbE_err c scrut _ _ (lbArms_err c arms _ _ _ _ _ h)
  | .bexpr id bs last semi, pc, t, h => by
    have hlast : (lbE c last pc (lbBinds c bs pc t)).t.err = none := by
      cases semi <;> simpa [lbE] using h
    exact lbBinds_err c bs _ _ (lbE_err c last _ _ hlast)
  | .orelse id a b, pc, t, h => by
    simp only [lbE, lbAt_t] at h
    exact lbE_err c a _ _ (lbE_err c b _ _ h)
  | .tryExit id a, pc, t, h => by
    simp only [lbE, lbAt_t] at h
    exact lbE_err c a _ _ h
  | .lambda id ps body, pc, t, h => by
    simp only [lbE, lbAt_t] at h
    exact lbE_err c body lvIn (t.setRes lvIn) h
  | .field id text d a, pc, t, h => by
    simp only [lbE] at h
    split at h <;> simp only [lbAt_t, lbSource_t] at h <;> exact lbE_err c a _ _ h
  | .spawn id body, pc, t, h => by
    simp only [lbE, lbSource_t] at h
    exact lbS_err c body lvIn (t.setRes lvIn) h
  | .pat id a, pc, t, h => by
    simp only [lbE, lbAt_t] at h
    exact lbE_err c a _ _ h
  | .op id kids, pc, t, h => lbKids_err c kids _ _ _ _ h

theorem lbKids_err (c : LbC) : ∀ (es : List Expr) (id : Nat) (pc acc : LbV) (t : LbT),
    (lbKids c id es pc acc t).t.err = none → t.err = none
  | [], id, pc, acc, t, h => by
    simpa [lbKids] using h
  | e :: es, id, pc, acc, t, h => lbE_err c e _ _ (lbKids_err c es _ _ _ _ h)

theorem lbArgs_err (c : LbC) : ∀ (es : List Expr) (f i : Nat) (mask : BitVec 64) (pc acc : LbV)
    (t : LbT), (lbArgs c f es i mask pc acc t).t.err = none → t.err = none
  | [], _, _, _, _, _, _, h => h
  | e :: es, _, _, _, _, _, _, h => lbE_err c e _ _ (lbArgs_err c es _ _ _ _ _ _ h)

theorem lbDecidesArgs_err (c : LbC) : ∀ (es : List Expr) (f : Nat) (mask : BitVec 64) (i : Nat)
    (pc : LbV) (t : LbT), (lbDecidesArgs c f mask es i pc t).err = none → t.err = none
  | [], _, _, _, _, _, h => h
  | e :: es, f, mask, i, pc, t, h => by
    by_contra ht
    rw [lbDecidesArgs, if_pos ht] at h
    exact ht h

theorem lbArms_err (c : LbC) : ∀ (arms : List Arm) (id : Nat) (pc sv acc : LbV) (t : LbT),
    (lbArms c id arms pc sv acc t).t.err = none → t.err = none
  | [], _, _, _, _, _, h => by
    simpa [lbArms] using h
  | .mk ns body :: arms, id, pc, sv, acc, t, h => by
    have hb := lbE_err c body _ _ (lbArms_err c arms _ _ _ _ _ h)
    rwa [lbBindKids_err] at hb

theorem lbBind_err (c : LbC) : ∀ (b : Bind) (pc : LbV) (t : LbT),
    (lbBind c b pc t).err = none → t.err = none
  | .mk id e, pc, t, h => by
    simp only [lbBind, lbAt_t] at h
    exact lbE_err c e _ _ h

theorem lbBinds_err (c : LbC) : ∀ (bs : List Bind) (pc : LbV) (t : LbT),
    (lbBinds c bs pc t).err = none → t.err = none
  | [], _, _, h => h
  | b :: bs, pc, t, h => by
    by_contra ht
    rw [lbBinds, if_pos ht] at h
    exact ht h

theorem lbS_err (c : LbC) : ∀ (s : Stmt) (pc : LbV) (t : LbT), (lbS c s pc t).err = none →
    t.err = none
  | .block ss, _, _, h => lbSeq_err c ss _ _ h
  | .bind b, _, _, h => lbBind_err c b _ _ h
  | .letpat id e, pc, t, h => by
    simp only [lbS, lbAt_t] at h
    exact lbE_err c e _ _ h
  | .destr ns e, pc, t, h => by
    simp only [lbS, lbBindKids_err] at h
    exact lbE_err c e _ _ h
  | .ret id none, pc, t, h => by
    simpa [lbS, LbT.setRes] using h
  | .ret id (some e), pc, t, h => by
    simp only [lbS, lbAt_t] at h
    exact lbE_err c e _ _ h
  | .brk _, _, _, h => h
  | .cont _, _, _, h => h
  | .cond _ cnd branches, _, _, h => lbE_err c cnd _ _ (lbSeq_err c branches _ _ h)
  | .while _ cnd body, _, _, h =>
    lbE_err c cnd _ _ (lbLoop_err (fun pc t => lbS_err c body pc t) h)
  | .for id it body, pc, t, h => by
    have hloop := lbLoop_err (fun pc t => lbS_err c body pc t) h
    simp only [lbAt_t] at hloop
    exact lbE_err c it _ _ hloop
  | .with bs body, _, _, h => lbBinds_err c bs _ _ (lbS_err c body _ _ h)
  | .expr id e, pc, t, h => by
    simp only [lbS, lbAt_t] at h
    exact lbE_err c e _ _ h

theorem lbSeq_err (c : LbC) : ∀ (ss : List Stmt) (pc : LbV) (t : LbT),
    (lbSeq c ss pc t).err = none → t.err = none
  | [], _, _, h => h
  | s :: ss, pc, t, h => by
    by_contra ht
    rw [lbSeq, if_pos ht] at h
    exact ht h

end

/-! ## One walk -/

/-- The names in `K` are bound as the body binds them. -/
structure Ready (F : Frame) (K : List Nat) (t : LbT) : Prop where
  env : ∀ d ∈ K, Stands (t.env d) (Named F d)
  sum : t.sum = F.sum

/-- From `t` to `t'`: `E` joined into the result, `G` into the breaks. -/
structure Walked (F : Frame) (K : List Nat) (t t' : LbT) (E G : Set Origin) : Prop where
  ready : Ready F K t'
  res : ∀ R, Stands t.res R → Stands t'.res (R ∪ E)
  brk : ∀ B, Stands t.brk B → Stands t'.brk (B ∪ G)

namespace Walked

variable {F : Frame} {K K' : List Nat} {t t' t'' : LbT} {E E' G G' : Set Origin}

theorem refl (h : Ready F K t) : Walked F K t t ∅ ∅ where
  ready := h
  res := fun R hR => by rwa [Set.union_empty]
  brk := fun B hB => by rwa [Set.union_empty]

theorem trans (h : Walked F K t t' E G) (h' : Walked F K' t' t'' E' G') :
    Walked F K' t t'' (E ∪ E') (G ∪ G') where
  ready := h'.ready
  res := fun R hR => by
    rw [← Set.union_assoc]
    exact h'.res _ (h.res R hR)
  brk := fun B hB => by
    rw [← Set.union_assoc]
    exact h'.brk _ (h.brk B hB)

theorem congr (h : Walked F K t t' E G) (hK : ∀ d ∈ K', d ∈ K) (hE : E = E') (hG : G = G') :
    Walked F K' t t' E' G' := by
  subst hE hG
  exact ⟨⟨fun d hd => h.ready.env d (hK d hd), h.ready.sum⟩, h.res, h.brk⟩

end Walked

theorem Ready.bind {F : Frame} {K : List Nat} {t : LbT} {id : Nat} {v : LbV} (h : Ready F K t)
    (hv : Stands v (Named F id)) : Ready F (K ++ [id]) (t.bind id v) := by
  refine ⟨fun d hd => ?_, h.sum⟩
  show Stands (Function.update t.env id v d) (Named F d)
  by_cases hid : d = id
  · subst hid
    rwa [Function.update_self]
  · rw [Function.update_of_ne hid]
    refine h.env d ?_
    rw [List.mem_append, List.mem_singleton] at hd
    exact hd.resolve_right hid

theorem Walked.bind {F : Frame} {K : List Nat} {t t' : LbT} {E G : Set Origin} {id : Nat} {v : LbV}
    (h : Walked F K t t' E G) (hv : Stands v (Named F id)) :
    Walked F (K ++ [id]) t (t'.bind id v) E G :=
  ⟨h.ready.bind hv, h.res, h.brk⟩

theorem Frame.Unique.named {F : Frame} (hF : F.Unique) {d : Nat} {e : Expr}
    (h : (d, e) ∈ F.binds) : Named F d = Val F e := by
  rw [Frame.Unique, List.nodup_append] at hF
  obtain ⟨-, hnodup, hdisj⟩ := hF
  have hkey : d ∈ names F.binds := List.mem_map_of_mem h
  ext o
  constructor
  · rintro (⟨i, hi, -⟩ | ⟨e', h', hv⟩)
    · exact absurd rfl (hdisj d (List.mem_of_getElem? hi) d hkey)
    · -- the two bindings of `d` are one
      have hsame : e' = e := by
        have := List.inj_on_of_nodup_map hnodup h' h rfl
        exact congrArg Prod.snd this
      rwa [← hsame]
  · intro hv
    exact Or.inr ⟨e, h, hv⟩

theorem lbBindKids_walked {F : Frame} (hF : F.Unique) {e : Expr} {v : LbV}
    (hv : Stands v (Val F e)) : ∀ {ns K : List Nat} {t t0 : LbT} {E G : Set Origin},
    (∀ n ∈ ns, (n, e) ∈ F.binds) → Walked F K t0 t E G →
    Walked F (K ++ ns) t0 (lbBindKids v ns t) E G
  | [], K, t, t0, E, G, _, h => by
    rwa [List.append_nil]
  | n :: ns, K, t, t0, E, G, hns, h => by
    have hn := hns n List.mem_cons_self
    have hstep : Walked F (K ++ [n]) t0 ((lbAt n v t).t.bind n (lbAt n v t).v) E G := by
      refine Walked.bind (by rwa [lbAt_t]) ?_
      rw [hF.named hn]
      exact hv.at n t
    have hrest := lbBindKids_walked hF hv (fun m hm => hns m (List.mem_cons_of_mem n hm)) hstep
    rw [List.append_assoc, List.singleton_append] at hrest
    exact hrest

/-- The test before the second walk of a loop. -/
theorem tells_more {F : Frame} {b pc : LbV} {conds gs : List Expr} (hb : Stands b (From F gs))
    (hpc : Stands pc (From F conds)) :
    ((b.x ≥ 0 ∧ pc.x < 0) ∨ b.d &&& (0 - 1 - pc.d) ≠ 0) ↔ TellsMore F conds gs := by
  refine or_congr (and_congr ?_ ?_) ?_
  · rw [ge_iff_le, hb.ext]
    constructor
    · rintro ⟨o, ⟨g, hg, hv⟩, ho⟩
      exact ⟨g, hg, o, ho, hv⟩
    · rintro ⟨g, hg, o, ho, hv⟩
      exact ⟨o, ⟨g, hg, hv⟩, ho⟩
  · rw [← not_le, hpc.ext]
    constructor
    · intro h c hc o ho hv
      exact h ⟨o, ⟨c, hc, hv⟩, ho⟩
    · rintro h ⟨o, ⟨c, hc, hv⟩, ho⟩
      exact h c hc o ho hv
  · have hbit : ∀ i, (b.d &&& (0 - 1 - pc.d)).getLsbD i = true ↔
        b.Has (.param i) ∧ ¬pc.Has (.param i) := by
      intro i
      have hnot : (0 : BitVec 64) - 1 - pc.d = ~~~pc.d := by
        exact BitVec.allOnes_sub_eq_not pc.d
      simp only [hnot, LbV.Has, BitVec.getLsbD_and, BitVec.getLsbD_not]
      by_cases hi : i < 64
      · simp [hi]
      · have hbig : b.d.getLsbD i = false := BitVec.getLsbD_of_ge _ _ (by omega)
        simp [hi, hbig]
    have hne : b.d &&& (0 - 1 - pc.d) ≠ 0 ↔ ∃ i, (b.d &&& (0 - 1 - pc.d)).getLsbD i = true := by
      rw [← not_iff_not, not_not, not_exists]
      constructor
      · intro h i
        rw [h]
        simp
      · intro h
        refine BitVec.eq_of_getLsbD_eq fun i hi => ?_
        simpa using h i
    rw [hne]
    refine exists_congr fun i => ?_
    rw [hbit, hb.has, hpc.has]
    refine and_congr Iff.rfl ?_
    constructor
    · intro h c hc hv
      exact h ⟨c, hc, hv⟩
    · rintro h ⟨c, hc, hv⟩
      exact h c hc hv

end Labels
