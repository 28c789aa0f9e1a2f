import Resid.Labels.Follows

/-!
# The kinds behind a result

`lb_fn` joins what it follows in a body into the function's summary:

    ((lbFn c f body t).sum f).Has o ↔ (t.sum f).Has o ∨ Followed (frameOf c t.sum f body) body o
                                                                                   (lbFn_has)

So the kind bit of outside sources is there whenever one reaches or selects the result, exactly when
one that does is followed (`kinds_complete`).  A loop driven at random is one where that fails: its
conditions are External, and a break chosen outside tells nothing new (`random_loop_missed`).
-/

namespace Labels

open Runtime

/-! ## Parameters -/

theorem lbParams_env_of_not_mem : ∀ {ps : List (Nat × Str)} {i d : Nat} {t : LbT},
    d ∉ ps.map (·.1) → (lbParams ps i t).env d = t.env d
  | [], _, _, _, _ => rfl
  | p :: ps, i, d, t, h => by
    rw [List.map_cons, List.mem_cons, not_or] at h
    rw [lbParams, lbParams_env_of_not_mem h.2]
    exact Function.update_of_ne h.1 _ _

theorem lbParams_env : ∀ {ps : List (Nat × Str)} {i j d : Nat} {t : LbT},
    (ps.map (·.1)).Nodup → (ps.map (·.1))[j]? = some d →
    (lbParams ps i t).env d = ⟨-1, lbBit (i + j), 0⟩
  | [], _, _, _, _, _, h => by simp at h
  | p :: ps, i, 0, d, t, hnodup, h => by
    rw [List.map_cons, List.nodup_cons] at hnodup
    rw [List.map_cons, List.getElem?_cons_zero, Option.some.injEq] at h
    subst h
    rw [lbParams, lbParams_env_of_not_mem hnodup.1]
    exact Function.update_self _ _ _
  | p :: ps, i, j + 1, d, t, hnodup, h => by
    rw [List.map_cons, List.nodup_cons] at hnodup
    rw [List.map_cons, List.getElem?_cons_succ] at h
    rw [lbParams, lbParams_env hnodup.2 h, show i + 1 + j = i + (j + 1) by omega]

theorem lbParams_rest : ∀ (ps : List (Nat × Str)) (i : Nat) (t : LbT),
    (lbParams ps i t).sum = t.sum ∧ (lbParams ps i t).res = t.res
  | [], _, _ => ⟨rfl, rfl⟩
  | p :: ps, i, t => lbParams_rest ps (i + 1) (t.bind p.1 ⟨-1, lbBit i, 0⟩)

theorem stands_param (i : Nat) : Stands ⟨-1, lbBit i, 0⟩ {.param (min i 62)} := by
  have hone : ∀ m j : Nat, m < 64 → (((1 : BitVec 64) <<< m).getLsbD j = true ↔ j = m) := by
    intro m j hm
    have h1 : (1 : BitVec 64) = BitVec.ofNat 64 1 := rfl
    rw [BitVec.getLsbD_shiftLeft, h1, BitVec.getLsbD_one]
    simp only [Bool.and_eq_true, decide_eq_true_eq, Bool.not_eq_true', decide_eq_false_iff_not]
    omega
  have hbit : ∀ j, (lbBit i).getLsbD j = true ↔ j = min i 62 := by
    intro j
    unfold lbBit
    split_ifs with hi
    · rw [hone i j (by omega), Nat.min_eq_left (by omega)]
    · rw [hone 62 j (by omega), Nat.min_eq_right (by omega)]
  constructor
  · intro o
    cases o with
    | outside => simp [LbV.Has]
    | random => simp [LbV.Has]
    | param j =>
      show (lbBit i).getLsbD j = true ↔ _
      rw [hbit, Set.mem_singleton_iff, Origin.param.injEq]
  · simp [Origin.isSource]

/-! ## A function -/

/-- What the resolver sees to: no two binders share a node, and what the body names is a parameter,
was bound before, or is a node that no walk binds. -/
structure Resolved (F : Frame) (body : Stmt) (env : Nat → LbV) : Prop where
  unique : F.Unique
  scope : ∃ free : List Nat, (∀ d ∈ free, env d = lvIn ∧ d ∉ F.params ++ names F.binds) ∧
    stmtResolved (F.params ++ free) body = true

/-- Summaries that are External exactly when a source is behind them. -/
def SumsOk (sum : Nat → LbV) : Prop :=
  ∀ f, 0 ≤ (sum f).x ↔ ∃ o, o.isSource = true ∧ (sum f).Has o

/-- The state a body is walked from. -/
def start (c : LbC) (f : Nat) (t : LbT) : LbT :=
  lbParams (c.fns f).params 0 { t with res := lvIn, brk := lvIn }

theorem ready_start {c : LbC} {f : Nat} {body : Stmt} {t : LbT} {free : List Nat}
    (hF : (frameOf c t.sum f body).Unique)
    (hfree : ∀ d ∈ free, t.env d = lvIn ∧
      d ∉ (frameOf c t.sum f body).params ++ names (frameOf c t.sum f body).binds) :
    Ready (frameOf c t.sum f body) ((frameOf c t.sum f body).params ++ free) (start c f t) := by
  refine ⟨fun d hd => ?_, (lbParams_rest _ _ _).1⟩
  have hsplit := hF
  rw [Frame.Unique, List.nodup_append] at hsplit
  obtain ⟨hparams, -, hdisj⟩ := hsplit
  rw [List.mem_append] at hd
  unfold start
  rcases hd with hd | hd
  · obtain ⟨j, hj⟩ := List.mem_iff_getElem?.1 hd
    rw [lbParams_env hparams hj, Nat.zero_add]
    refine (stands_param j).congr ?_
    ext o
    constructor
    · rintro rfl
      exact Or.inl ⟨j, hj, rfl⟩
    · rintro (⟨i, hi, rfl⟩ | ⟨e, he, -⟩)
      · -- a parameter has one place
        have hlt := List.getElem?_eq_some_iff.1 hj
        have hij : i = j := by
          have hi' := List.getElem?_eq_some_iff.1 hi
          exact (List.Nodup.getElem_inj_iff hparams).1 (hi'.2.trans hlt.2.symm)
        rw [hij]
        rfl
      · exact absurd rfl (hdisj d hd d (List.mem_map_of_mem he))
  · obtain ⟨hin, hnot⟩ := hfree d hd
    rw [List.mem_append, not_or] at hnot
    rw [lbParams_env_of_not_mem hnot.1, hin]
    refine stands_in.congr ?_
    ext o
    constructor
    · intro h
      cases h
    · rintro (⟨i, hi, -⟩ | ⟨e, he, -⟩)
      · exact absurd (List.mem_of_getElem? hi) hnot.1
      · exact absurd (List.mem_map_of_mem he) hnot.2

section Function

variable {c : LbC} {f : Nat} {body : Stmt} {t : LbT}

theorem lbFn_sum : (lbFn c f body t).sum = Function.update (lbS c body lvIn (start c f t)).sum f
    (lvJoin ((lbS c body lvIn (start c f t)).sum f) (lbS c body lvIn (start c f t)).res) := by
  unfold lbFn start LbT.fail
  dsimp only
  split_ifs <;> rfl

/-- A walk without an error has passed the check of `E0286`. -/
theorem lbFn_err (h : (lbFn c f body t).err = none) :
    (lbS c body lvIn (start c f t)).err = none ∧
    ¬(c.last = true ∧ (c.fns f).decides = true ∧ ((lbFn c f body t).sum f).x ≥ 0 ∧
      ((lbFn c f body t).sum f).k &&& 1 ≠ 0) := by
  rw [lbFn_sum, Function.update_self]
  simp only [lbFn] at h
  split_ifs at h with hbad
  · have h2 := err_of_fail h
    rw [LbT.fail, if_pos h2] at h
    cases h
  · exact ⟨h, hbad⟩

theorem lbFn_walked (hbody : Resolved (frameOf c t.sum f body) body t.env) (hsums : SumsOk t.sum)
    (herr : (lbFn c f body t).err = none) :
    (lbS c body lvIn (start c f t)).sum = t.sum ∧
    Stands (lbS c body lvIn (start c f t)).res {o | Followed (frameOf c t.sum f body) body o} := by
  obtain ⟨free, hfree, hscope⟩ := hbody.scope
  have hw := lbS_follows ⟨hbody.unique, hsums⟩ body hscope (fun p hp => hp)
    (ready_start hbody.unique hfree) (stands_in.congr from_nil.symm) (lbFn_err herr).1
  refine ⟨hw.ready.sum, ?_⟩
  have hres := hw.res ∅ (by
    unfold start
    rw [(lbParams_rest _ _ _).2]
    exact stands_in)
  rwa [Set.empty_union] at hres

theorem lbFn_has (hbody : Resolved (frameOf c t.sum f body) body t.env) (hsums : SumsOk t.sum)
    (herr : (lbFn c f body t).err = none) :
    Stands ((lbFn c f body t).sum f)
      {o | (t.sum f).Has o ∨ Followed (frameOf c t.sum f body) body o} := by
  obtain ⟨hsum, hres⟩ := lbFn_walked hbody hsums herr
  have hold : Stands (t.sum f) {o | (t.sum f).Has o} := by
    refine ⟨fun o => Iff.rfl, (hsums f).trans (exists_congr fun o => ?_)⟩
    rw [and_comm]
    rfl
  rw [lbFn_sum, Function.update_self, hsum]
  exact hold.join hres

theorem has_outside (v : LbV) : v.k &&& 1 ≠ 0 ↔ v.Has .outside := by
  have hbit : v.k &&& 1 = if v.k.getLsbD 0 = true then 1 else 0 := by
    refine BitVec.eq_of_getLsbD_eq fun i hi => ?_
    have h1 : (1 : BitVec 64) = BitVec.ofNat 64 1 := rfl
    rw [h1, BitVec.getLsbD_and, BitVec.getLsbD_one]
    by_cases hi0 : i = 0
    · subst hi0
      cases v.k.getLsbD 0 <;> simp
    · split_ifs <;> simp [hi0]
  rw [hbit]
  show _ ↔ v.k.getLsbD 0 = true
  cases v.k.getLsbD 0 with
  | true => exact ⟨fun _ => rfl, fun _ => by decide⟩
  | false => exact ⟨fun h => absurd rfl h, fun h => by cases h⟩

/-- The kind bit of outside sources is complete for a body exactly when one of the flows that bring
an outside source is followed; then no `@decides` function with such a flow passes its check. -/
theorem kinds_complete (hbody : Resolved (frameOf c t.sum f body) body t.env)
    (hsums : SumsOk t.sum) (herr : (lbFn c f body t).err = none) :
    ((Reaches (frameOf c t.sum f body) body .outside →
        ((lbFn c f body t).sum f).k &&& 1 ≠ 0) ↔
      (Reaches (frameOf c t.sum f body) body .outside →
        (t.sum f).k &&& 1 ≠ 0 ∨ Followed (frameOf c t.sum f body) body .outside)) ∧
    (c.last = true → (c.fns f).decides = true →
      ¬((t.sum f).k &&& 1 ≠ 0 ∨ Followed (frameOf c t.sum f body) body .outside)) := by
  have h := lbFn_has hbody hsums herr
  have hbit : ((lbFn c f body t).sum f).k &&& 1 ≠ 0 ↔
      (t.sum f).k &&& 1 ≠ 0 ∨ Followed (frameOf c t.sum f body) body .outside := by
    rw [has_outside, has_outside, h.has]
    rfl
  refine ⟨by rw [hbit], fun hlast hdec hor => ?_⟩
  have hk := hbit.2 hor
  have hx : ((lbFn c f body t).sum f).x ≥ 0 :=
    h.ext.2 ⟨.outside, (h.has _).1 ((has_outside _).1 hk), rfl⟩
  exact (lbFn_err herr).2 ⟨hlast, hdec, hx, hk⟩

end Function

/-! ## Two functions -/

def testC (fn : LbFn) (last : Bool) : LbC :=
  ⟨fun _ => false, fun _ => false, fun _ => false, fun _ => [], fun _ => fn, last⟩

def testT : LbT := ⟨fun _ => lvIn, fun _ => lvIn, lvIn, lvIn, none⟩

/-- `for (Int x in xs) { if (str_len(args.get(1)) == x) { break; } if (x == 3) { return 1; } }
return 0;` with `xs` node 0 and `x` node 1. -/
def findBody : Stmt :=
  .block [.for 1 (.ref 2 "xs".toList (.binder 0)) (.block [
    .cond 3 (.op 4 [.call 5 "str_len".toList .builtin
      [.mcall 6 "get".toList .unresolved [.ref 7 "args".toList .builtin, .lit 8]],
      .ref 9 "x".toList (.binder 1)]) [.block [.brk 10]],
    .cond 11 (.op 12 [.ref 13 "x".toList (.binder 1), .lit 14])
      [.block [.ret 15 (some (.lit 16))]]]),
    .ret 17 (some (.lit 18))]

def findFn : LbFn := ⟨"find".toList, [(0, "xs".toList)], none, false, [], false⟩

theorem sumsOk_start : SumsOk testT.sum := by
  intro f
  constructor
  · intro h
    cases h
  · rintro ⟨o, ho, h⟩
    cases o <;> simp [testT, lvIn, LbV.Has, Origin.isSource] at ho h

theorem kinds_complete_find :
    ((Reaches (frameOf (testC findFn false) testT.sum 19 findBody) findBody .outside →
        ((lbFn (testC findFn false) 19 findBody testT).sum 19).k &&& 1 ≠ 0) ↔
      (Reaches (frameOf (testC findFn false) testT.sum 19 findBody) findBody .outside →
        (testT.sum 19).k &&& 1 ≠ 0 ∨
          Followed (frameOf (testC findFn false) testT.sum 19 findBody) findBody .outside)) ∧
    ((testC findFn false).last = true → ((testC findFn false).fns 19).decides = true →
      ¬((testT.sum 19).k &&& 1 ≠ 0 ∨
        Followed (frameOf (testC findFn false) testT.sum 19 findBody) findBody .outside)) :=
  kinds_complete ⟨by unfold Frame.Unique; decide, [], by simp, by decide⟩ sumsOk_start (by decide)

/-- `resid_crypto_random_byte() < 128` and `resid_read_byte() == 120`. -/
def pickCond : Expr := .op 2 [.call 0 "resid_crypto_random_byte".toList .builtin [], .lit 1]

def pickGuard : Expr := .op 5 [.call 3 "resid_read_byte".toList .builtin [], .lit 4]

/-- `while (cond) { if (guard) { break; } return true; } return false;` -/
def pickBody : Stmt :=
  .block [.while 11 pickCond (.block [.cond 8 pickGuard [.block [.brk 6]],
    .ret 10 (some (.lit 9))]), .ret 13 (some (.lit 12))]

def pickFn : LbFn := ⟨"pick".toList, [], none, false, [], true⟩

/-- A break chosen outside decides between two results, and the function passes as `@decides`. -/
theorem random_loop_missed :
    Resolved (frameOf (testC pickFn true) testT.sum 14 pickBody) pickBody testT.env ∧
    SumsOk testT.sum ∧ (lbFn (testC pickFn true) 14 pickBody testT).err = none ∧
    (testC pickFn true).last = true ∧ ((testC pickFn true).fns 14).decides = true ∧
    Reaches (frameOf (testC pickFn true) testT.sum 14 pickBody) pickBody .outside ∧
    ((lbFn (testC pickFn true) 14 pickBody testT).sum 14).k &&& 1 = 0 := by
  refine ⟨⟨by unfold Frame.Unique; decide, [], by simp, by decide⟩, sumsOk_start, by decide, rfl,
    rfl, ?_, by decide⟩
  have hread : Value (frameOf (testC pickFn true) testT.sum 14 pickBody) True
      (.call 3 "resid_read_byte".toList .builtin []) .outside :=
    @Value.source _ _ (.call 3 "resid_read_byte".toList .builtin [])
      (lbBuiltinWhat "resid_read_byte".toList) (by decide)
  have hguard : Value (frameOf (testC pickFn true) testT.sum 14 pickBody) True pickGuard .outside :=
    .operand (by simp [pickGuard, operands]) hread
  -- the loop's return is under the guard of its break
  have hloop : Selects (frameOf (testC pickFn true) testT.sum 14 pickBody) True (fun _ _ => True) []
      (.while 11 pickCond (.block [.cond 8 pickGuard [.block [.brk 6]],
        .ret 10 (some (.lit 9))])) .outside := by
    refine .guard rfl trivial (.sub (List.mem_cons_of_mem _ List.mem_cons_self) (.cond ?_ hguard))
    simp [guards, seqGuards]
  exact .sub List.mem_cons_self hloop

end Labels
