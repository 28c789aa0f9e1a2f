import Resid.Labels.Kinds

/-!
# One walk follows the flows

A walk of a node whose names are bound leaves the label of `Value`, joins `Escapes` or `Selects`
into the result and `strays` or `guards` into the breaks:

    Follows F K conds e t (lbE F.c e pc t)                                      (lbE_follows)
    Walked F K' t (lbS F.c s pc t) (Sel F conds s) (From F (guards conds s))    (lbS_follows)

`K` lists the names bound so far and `conds` the conditions that `pc` is the join of.  There is one
lemma for each kind of node, from what its parts leave; the induction over the body puts them
together.  A loop leaves what its body does, and a second time under its breaks when these tell more
(`lbLoop_follows`).
-/

namespace Labels

open Runtime

/-- A body as the resolver leaves it, among summaries that tell sources from none. -/
structure Frame.Ok (F : Frame) : Prop where
  unique : F.Unique
  sums : ∀ f, 0 ≤ (F.sum f).x ↔ ∃ o, o.isSource = true ∧ (F.sum f).Has o

def Sel (F : Frame) (conds : List Expr) (s : Stmt) : Set Origin :=
  {o | Selects F False (TellsMore F) conds s o}

/-- What one of a list of statements returns. -/
def SelFrom (F : Frame) (ps : List (List Expr × Stmt)) : Set Origin :=
  {o | ∃ p ∈ ps, Selects F False (TellsMore F) p.1 p.2 o}

section Sets

variable {F : Frame}

@[simp] theorem selFrom_nil : SelFrom F [] = ∅ := by
  simp [SelFrom]

@[simp] theorem selFrom_cons (p : List Expr × Stmt) (ps : List (List Expr × Stmt)) :
    SelFrom F (p :: ps) = Sel F p.1 p.2 ∪ SelFrom F ps := by
  ext o
  simp [SelFrom, Sel]

/-- What a statement selects, one part for each way there is. -/
theorem sel_eq (F : Frame) (conds : List Expr) (s : Stmt) : Sel F conds s =
    EscFrom F (exprs conds s) ∪ SelFrom F (subs conds s) ∪
    {o | ∃ id e, s = .ret id e ∧ (o ∈ From F e.toList ∨ o ∈ From F conds)} ∪
    {o | ∃ c body, loopOf s = some (c, body) ∧ TellsMore F (c :: conds) (guards (c :: conds) body) ∧
      o ∈ Sel F (c :: conds ++ guards (c :: conds) body) body} := by
  ext o
  constructor
  · intro h
    cases h with
    | value h => exact Or.inl (Or.inr ⟨_, _, rfl, Or.inl ⟨_, List.mem_singleton.2 rfl, h⟩⟩)
    | cond h1 h2 => exact Or.inl (Or.inr ⟨_, _, rfl, Or.inr ⟨_, h1, h2⟩⟩)
    | escape h1 h2 => exact Or.inl (Or.inl (Or.inl ⟨_, h1, h2⟩))
    | sub h1 h2 => exact Or.inl (Or.inl (Or.inr ⟨_, h1, h2⟩))
    | guard h1 h2 h3 => exact Or.inr ⟨_, _, h1, h2, h3⟩
  · rintro (((⟨p, h1, h2⟩ | ⟨p, h1, h2⟩) | ⟨id, e, rfl, ⟨a, h1, h2⟩ | ⟨c, h1, h2⟩⟩) |
      ⟨c, body, h1, h2, h3⟩)
    · exact .escape h1 h2
    · exact .sub h1 h2
    · rw [Option.mem_toList] at h1
      cases h1
      exact .value h2
    · exact .cond h1 h2
    · exact .guard h1 h2 h3

/-- A statement that is neither a return nor a loop. -/
theorem sel_plain {conds : List Expr} {s : Stmt} (hret : ∀ id e, s ≠ .ret id e)
    (hloop : loopOf s = none) :
    Sel F conds s = EscFrom F (exprs conds s) ∪ SelFrom F (subs conds s) := by
  rw [sel_eq]
  simp [hret, hloop]

theorem sel_ret (conds : List Expr) (id : Nat) (e : Option Expr) : Sel F conds (.ret id e) =
    EscFrom F (exprs conds (.ret id e)) ∪ (From F e.toList ∪ From F conds) := by
  rw [sel_eq]
  ext o
  simp [subs, loopOf]

/-- A loop selects by its body, and by its breaks where they tell more. -/
theorem sel_loop {conds : List Expr} {s body : Stmt} {c : Expr} (hloop : loopOf s = some (c, body))
    (hexprs : exprs conds s = [(conds, c)]) (hsubs : subs conds s = [(c :: conds, body)]) :
    Sel F conds s = Esc F conds c ∪ (Sel F (c :: conds) body ∪
      {o | TellsMore F (c :: conds) (guards (c :: conds) body) ∧
        o ∈ Sel F (c :: conds ++ guards (c :: conds) body) body}) := by
  have hret : ∀ id e, s ≠ .ret id e := by
    intro id e h
    rw [h] at hloop
    cases hloop
  rw [sel_eq, hexprs, hsubs]
  ext o
  simp [hret, hloop, or_assoc]

end Sets

/-! ## Steps of the walk -/

theorem stands_summary {s : LbV} (h : 0 ≤ s.x ↔ ∃ o, o.isSource = true ∧ s.Has o) :
    Stands ⟨s.x, 0, s.k⟩ {o | o.isSource = true ∧ s.Has o} := by
  constructor
  · intro o
    cases o <;> simp [LbV.Has, Origin.isSource]
  · show 0 ≤ s.x ↔ _
    rw [h]
    constructor
    · rintro ⟨o, h1, h2⟩
      exact ⟨o, ⟨h1, h2⟩, h1⟩
    · rintro ⟨o, ⟨h1, h2⟩, -⟩
      exact ⟨o, h1, h2⟩

theorem Frame.Ok.summary {F : Frame} (hF : F.Ok) (f : Nat) :
    0 ≤ (lbSummary F.c f (F.sum f)).x ↔
      ∃ o, o.isSource = true ∧ (lbSummary F.c f (F.sum f)).Has o := by
  unfold lbSummary
  split_ifs
  · constructor
    · intro h
      cases h
    · rintro ⟨o, ho, h⟩
      cases o <;> simp [LbV.Has, Origin.isSource] at ho h
  · exact hF.sums f

variable {c : LbC} {e : Expr} {d : Def} {text : Str}

/-- The second look at the arguments leaves the state, or an error. -/
theorem lbDecidesArgs_eq {f : Nat} {mask : BitVec 64} {pc : LbV} :
    ∀ {es : List Expr} {i : Nat} {t : LbT}, (lbDecidesArgs c f mask es i pc t).err = none →
    lbDecidesArgs c f mask es i pc t = t
  | [], _, _, _ => rfl
  | e :: es, i, t, h => by
    have ht := lbDecidesArgs_err c (e :: es) f mask i pc t h
    rw [lbDecidesArgs, if_neg (by simpa using ht)] at h ⊢
    rw [lbDecidesArgs_eq h]
    have hstep := lbDecidesArgs_err c es _ _ _ _ _ h
    split_ifs at hstep ⊢ with hbad
    · rw [LbT.fail, if_pos ht] at hstep
      cases hstep
    · rfl

theorem Ready.mono {F : Frame} {K K' : List Nat} {t : LbT} (h : Ready F K t)
    (hK : ∀ d ∈ K', d ∈ K) : Ready F K' t :=
  ⟨fun d hd => h.env d (hK d hd), h.sum⟩

theorem Ready.setRes {F : Frame} {K : List Nat} {t : LbT} (h : Ready F K t) (r : LbV) :
    Ready F K (t.setRes r) := ⟨h.env, h.sum⟩

theorem Ready.setBrk {F : Frame} {K : List Nat} {t : LbT} (h : Ready F K t) (b : LbV) :
    Ready F K (t.setBrk b) := ⟨h.env, h.sum⟩

/-- A walk whose returns are dropped: of a closure or of a region. -/
theorem Walked.inside {F : Frame} {K : List Nat} {t t' : LbT} {E G : Set Origin}
    (h : Walked F K (t.setRes lvIn) t' E G) :
    Stands t'.res E ∧ Walked F K t (t'.setRes t.res) ∅ G := by
  refine ⟨?_, h.ready.setRes _, fun R hR => ?_, h.brk⟩
  · have := h.res ∅ stands_in
    rwa [Set.empty_union] at this
  · rwa [Set.union_empty]

theorem lbLoop_follows {F : Frame} {K K' : List Nat} {walk : LbV → LbT → LbT} {body : Stmt}
    {conds : List Expr} {pc : LbV} {t : LbT} (hK : ∀ d ∈ K, d ∈ K')
    (hwalk : ∀ {conds : List Expr} {pc : LbV} {t : LbT}, Ready F K t →
      Stands pc (From F conds) → (walk pc t).err = none →
      Walked F K' t (walk pc t) (Sel F conds body) (From F (guards conds body)))
    (herr : ∀ pc t, (walk pc t).err = none → t.err = none)
    (ht : Ready F K t) (hpc : Stands pc (From F conds)) (h : (lbLoop walk pc t).err = none) :
    Walked F K' t (lbLoop walk pc t) (Sel F conds body ∪
      {o | TellsMore F conds (guards conds body) ∧ o ∈ Sel F (conds ++ guards conds body) body})
      ∅ := by
  have hfirst : (walk pc (t.setBrk lvIn)).err = none := by
    simp only [lbLoop] at h
    split_ifs at h
    · exact herr _ ((walk pc (t.setBrk lvIn)).setBrk lvIn) h
    · exact h
  have h1 := hwalk (ht.setBrk lvIn) hpc hfirst
  have hb : Stands (walk pc (t.setBrk lvIn)).brk (From F (guards conds body)) := by
    have := h1.brk ∅ stands_in
    rwa [Set.empty_union] at this
  have htells := tells_more hb hpc
  simp only [lbLoop] at h ⊢
  by_cases hmore : TellsMore F conds (guards conds body)
  · rw [if_pos (htells.2 hmore)] at h ⊢
    have hpc' : Stands (lvJoin pc (walk pc (t.setBrk lvIn)).brk)
        (From F (conds ++ guards conds body)) := (hpc.join hb).congr (from_append _ _).symm
    have h2 := hwalk ((h1.ready.mono hK).setBrk lvIn) hpc' h
    refine ⟨h2.ready.setBrk _, fun R hR => ?_, fun B hB => by rwa [Set.union_empty]⟩
    have := h2.res _ (h1.res R hR)
    refine this.congr ?_
    rw [Set.union_assoc]
    simp [hmore, Sel]
  · rw [if_neg fun hm => hmore (htells.1 hm)] at h ⊢
    refine ⟨h1.ready.setBrk _, fun R hR => ?_, fun B hB => by rwa [Set.union_empty]⟩
    refine (h1.res R hR).congr ?_
    simp [hmore]

/-! ## The walk -/

/-- What a walk of `e` leaves. -/
structure Follows (F : Frame) (K : List Nat) (conds : List Expr) (e : Expr) (t : LbT) (r : LbE) :
    Prop where
  v : Stands r.v (Val F e)
  walked : Walked F (K ++ names (binds e)) t r.t (Esc F conds e) (From F (strays e))

theorem lbApply_follows {F : Frame} (hF : F.Ok) {K : List Nat} {conds : List Expr} {id f : Nat}
    {as : List Expr} {pc : LbV} {t : LbT} (hsum : t.sum = F.sum)
    (he : (∃ text, e = .call id text (.fn f) as) ∨ ∃ text, e = .mcall id text (.fn f) as)
    (hk : (lbKids F.c id as pc lvIn t).t.err = none → Walked F (K ++ names (kidsBinds as)) t
      (lbKids F.c id as pc lvIn t).t (EscFrom F (as.map fun a => (conds, a)))
      (From F (kidsStrays as)))
    (ha : ∀ {mask : BitVec 64} {acc : LbV} {A : Set Origin}, Stands acc A →
      (lbArgs F.c f as 0 mask pc acc t).t.err = none →
      Stands (lbArgs F.c f as 0 mask pc acc t).v
        (A ∪ From F (reaching (F.c.fns f) mask 0 as)) ∧
      Walked F (K ++ names (kidsBinds as)) t (lbArgs F.c f as 0 mask pc acc t).t
        (EscFrom F (as.map fun a => (conds, a))) (From F (kidsStrays as)))
    (h : (lbApply F.c id f (fun t => lbKids F.c id as pc lvIn t)
      (fun mask acc t => lbArgs F.c f as 0 mask pc acc t)
      (fun mask t => lbDecidesArgs F.c f mask as 0 pc t) t).t.err = none) :
    Follows F K conds e t (lbApply F.c id f (fun t => lbKids F.c id as pc lvIn t)
      (fun mask acc t => lbArgs F.c f as 0 mask pc acc t)
      (fun mask t => lbDecidesArgs F.c f mask as 0 pc t) t) := by
  obtain ⟨hbinds, hstrays, hacq, hname, hops, hlam⟩ : binds e = kidsBinds as ∧
      strays e = kidsStrays as ∧ acquires F.c e = linkWhat F.c f ∧ nameOf e = none ∧
      operands F e = passed F f as ∧ ∀ id params body, e ≠ .lambda id params body := by
    rcases he with ⟨_, rfl⟩ | ⟨_, rfl⟩ <;> exact ⟨rfl, rfl, rfl, rfl, rfl, by simp⟩
  have hesc : Esc F conds e = EscFrom F (as.map fun a => (conds, a)) := by
    rcases he with ⟨_, rfl⟩ | ⟨_, rfl⟩ <;> exact esc_parts (by simp)
  have hsummary : summaryOf F e =
      if (F.c.fns f).link.isSome then none else some (lbSummary F.c f (F.sum f)) := by
    rcases he with ⟨_, rfl⟩ | ⟨_, rfl⟩ <;> dsimp only [summaryOf] <;>
      cases (F.c.fns f).link <;> rfl
  unfold lbApply at h ⊢
  cases hlink : (F.c.fns f).link with
  | some m =>
    rw [hlink] at h
    refine ⟨?_, ?_⟩
    · refine (stands_source id _ _).congr ?_
      rw [val_eq, hops]
      simp [hacq, hname, hlam, hsummary, hlink, linkWhat, passed]
    · rw [hbinds, hstrays, hesc]
      exact hk h
  | none =>
    rw [hlink] at h
    simp only [lbAt_t, hsum] at h ⊢
    have hdec : (lbArgs F.c f as 0 (lbSummary F.c f (F.sum f)).d pc
        ⟨(lbSummary F.c f (F.sum f)).x, 0, (lbSummary F.c f (F.sum f)).k⟩ t).t.err = none := by
      split_ifs at h
      · exact lbDecidesArgs_err F.c as _ _ _ _ _ h
      · exact h
    obtain ⟨hv, hw⟩ := ha (stands_summary (hF.summary f)) hdec
    refine ⟨?_, ?_⟩
    · refine (hv.at id _).congr ?_
      rw [val_eq, hops]
      simp [hacq, hname, hlam, hsummary, hlink, linkWhat, passed]
    · rw [hbinds, hstrays, hesc, lbAt_t]
      split_ifs at h ⊢
      · rw [lbDecidesArgs_eq h]
        exact hw
      · exact hw

/-- A node with nothing to walk. -/
theorem follows_leaf {F : Frame} {K : List Nat} {conds : List Expr} {t : LbT} {r : LbE}
    (ht : Ready F K t) (hr : r.t = t) (hbinds : binds e = []) (hparts : parts conds e = [])
    (hstrays : strays e = []) (htry : ∀ id a, e ≠ .tryExit id a) (hv : Stands r.v (Val F e)) :
    Follows F K conds e t r := by
  refine ⟨hv, ?_⟩
  rw [hr, hbinds, hstrays, esc_parts htry, hparts, escFrom_nil, from_nil, names, List.map_nil,
    List.append_nil]
  exact Walked.refl ht

theorem val_builtin (F : Frame) (id : Nat) (text : Str) (args : List Expr) :
    Val F (.call id text .builtin args) =
      match acquires F.c (.call id text .builtin args) with
      | some what => {originOf what}
      | none => From F args := by
  rw [val_eq, operands]
  cases hacq : acquires F.c (.call id text .builtin args) <;> simp [summaryOf, nameOf]

theorem val_method (F : Frame) (hd : ∀ f, d ≠ .fn f) (id : Nat) (text : Str) (kids : List Expr) :
    Val F (.mcall id text d kids) =
      match lbProviderWhat text kids with
      | some what => {originOf what}
      | none => From F kids := by
  rw [val_eq]
  cases d with
  | fn f => exact absurd rfl (hd f)
  | _ => cases hwhat : lbProviderWhat text kids <;>
      simp [acquires, operands, summaryOf, nameOf, hwhat]

theorem val_field (F : Frame) (id : Nat) (text : Str) (d : Def) (a : Expr) :
    Val F (.field id text d a) = Val F a ∪
      {o | ∃ what, fieldWhat F.c d text = some what ∧ o = originOf what} := by
  rw [val_eq]
  ext o
  simp [acquires, summaryOf, nameOf, operands, or_comm]

theorem lbE_builtin_err {id : Nat} {args : List Expr} {pc : LbV} {t : LbT}
    (h : (lbE c (.call id text .builtin args) pc t).t.err = none) :
    (lbKids c id args pc lvIn t).t.err = none := by
  simp only [lbE] at h
  split_ifs at h
  all_goals first
    | exact h
    | exact err_of_fail h

theorem follows_builtin {F : Frame} {K : List Nat} {conds : List Expr} {id : Nat}
    {args : List Expr} {pc : LbV} {t : LbT}
    (hv : Stands (lbKids F.c id args pc lvIn t).v (From F args))
    (hw : Walked F (K ++ names (kidsBinds args)) t (lbKids F.c id args pc lvIn t).t
      (EscFrom F (args.map fun a => (conds, a))) (From F (kidsStrays args)))
    (h : (lbE F.c (.call id text .builtin args) pc t).t.err = none) :
    Follows F K conds (.call id text .builtin args) t
      (lbE F.c (.call id text .builtin args) pc t) := by
  have hk := lbE_builtin_err h
  have hw' : Walked F (K ++ names (binds (.call id text .builtin args))) t
      (lbKids F.c id args pc lvIn t).t (Esc F conds (.call id text .builtin args))
      (From F (strays (.call id text .builtin args))) := by
    rw [esc_parts (by simp)]
    exact hw
  have hval := val_builtin F id text args
  simp only [lbE] at h ⊢
  by_cases hbn : F.c.bnames text = true
  · simp only [acquires, hbn, if_true] at hval
    simp only [hbn, if_true, one_ne_zero, if_false, OfNat.one_ne_ofNat]
    exact ⟨hv.congr hval.symm, hw'⟩
  simp only [acquires, hbn, Bool.false_eq_true, if_false] at hval
  simp only [hbn, Bool.false_eq_true, if_false] at h ⊢
  -- one case for each class of the table
  generalize lbBuiltin F.c text = b at h hval ⊢
  rcases b with _ | _ | _ | _ | _ | n
  · rw [if_pos rfl, LbT.fail, if_pos hk] at h
    cases h
  · exact ⟨hv.congr hval.symm, hw'⟩
  · exact ⟨(stands_source id _ _).congr hval.symm, hw'⟩
  · cases hstd : F.c.inStd id with
    | true =>
      simp only [hstd, if_true] at hval
      exact ⟨hv.congr hval.symm, hw'⟩
    | false =>
      simp only [hstd] at hval
      exact ⟨(stands_source id _ _).congr hval.symm, hw'⟩
  · exact ⟨(stands_source id _ _).congr hval.symm, hw'⟩
  · rw [if_neg (by omega), if_neg (by omega), if_neg (by omega), if_neg (by omega)]
    exact ⟨hv.congr hval.symm, hw'⟩

theorem lbE_method (c : LbC) (hd : ∀ f, d ≠ .fn f) (id : Nat) (text : Str) (kids : List Expr)
    (pc : LbV) (t : LbT) : lbE c (.mcall id text d kids) pc t =
      match lbProviderWhat text kids with
      | some what => lbSource id what (lbKids c id kids pc lvIn t).t
      | none => lbKids c id kids pc lvIn t := by
  cases d with
  | fn f => exact absurd rfl (hd f)
  | _ => rfl

theorem lbE_method_err (hd : ∀ f, d ≠ .fn f) {id : Nat} {kids : List Expr} {pc : LbV} {t : LbT}
    (h : (lbE c (.mcall id text d kids) pc t).t.err = none) :
    (lbKids c id kids pc lvIn t).t.err = none := by
  rw [lbE_method c hd] at h
  split at h <;> exact h

theorem follows_method {F : Frame} {K : List Nat} {conds : List Expr} {id : Nat}
    (hd : ∀ f, d ≠ .fn f) {kids : List Expr} {pc : LbV} {t : LbT}
    (hv : Stands (lbKids F.c id kids pc lvIn t).v (From F kids))
    (hw : Walked F (K ++ names (kidsBinds kids)) t (lbKids F.c id kids pc lvIn t).t
      (EscFrom F (kids.map fun a => (conds, a))) (From F (kidsStrays kids))) :
    Follows F K conds (.mcall id text d kids) t (lbE F.c (.mcall id text d kids) pc t) := by
  have hval := val_method F hd id text kids
  have hesc := @esc_parts F conds (.mcall id text d kids) (by simp)
  rw [lbE_method F.c hd]
  cases hwhat : lbProviderWhat text kids with
  | some what =>
    rw [hwhat] at hval
    refine ⟨(stands_source id _ _).congr hval.symm, ?_⟩
    rw [hesc]
    exact hw
  | none =>
    rw [hwhat] at hval
    refine ⟨hv.congr hval.symm, ?_⟩
    rw [hesc]
    exact hw

theorem lbE_field (c : LbC) (id : Nat) (text : Str) (d : Def) (a : Expr) (pc : LbV) (t : LbT) :
    lbE c (.field id text d a) pc t =
      let r := lbE c a pc t
      let v := (lbAt id (lvJoin lvIn r.v) r.t).v
      match fieldWhat c d text with
      | some what => ⟨lvJoin v (lbSource id what r.t).v, r.t⟩
      | none => ⟨v, r.t⟩ := by
  have hpair : ∀ j t, lbAt id j t = ⟨(lbAt id j t).v, t⟩ := fun j t => by
    unfold lbAt
    split_ifs <;> rfl
  rw [lbE]
  cases fieldWhat c d text with
  | none => exact hpair _ _
  | some what =>
    rw [lbAt_t]
    rfl

theorem lbE_field_state (c : LbC) (id : Nat) (text : Str) (d : Def) (a : Expr) (pc : LbV)
    (t : LbT) : (lbE c (.field id text d a) pc t).t = (lbE c a pc t).t := by
  rw [lbE_field]
  split <;> rfl

theorem follows_field {F : Frame} {K : List Nat} {conds : List Expr} {id : Nat} {a : Expr}
    {pc : LbV} {t : LbT} (hv : Stands (lbE F.c a pc t).v (Val F a))
    (hw : Walked F (K ++ names (binds a)) t (lbE F.c a pc t).t (Esc F conds a)
      (From F (strays a))) :
    Follows F K conds (.field id text d a) t (lbE F.c (.field id text d a) pc t) := by
  have hat := (stands_in.join hv).at id (lbE F.c a pc t).t
  rw [Set.empty_union] at hat
  refine ⟨?_, ?_⟩
  · rw [val_field, lbE_field]
    cases hacq : fieldWhat F.c d text with
    | some what =>
      refine (hat.join (stands_source id what _)).congr ?_
      simp
    | none => exact hat.congr (by simp)
  · rw [lbE_field_state, esc_parts (by simp), parts, escFrom_cons, escFrom_nil, Set.union_empty]
    exact hw

/-- The conditions, and one more. -/
theorem Stands.under {F : Frame} {pc v : LbV} {conds : List Expr} (hpc : Stands pc (From F conds))
    (hv : Stands v (Val F e)) : Stands (lvJoin pc v) (From F (e :: conds)) := by
  rw [from_cons, Set.union_comm]
  exact hpc.join hv

theorem val_lambda {F : Frame} (id : Nat) (ps : List Nat) (body : Expr) :
    Val F (.lambda id ps body) = Val F body ∪ Esc F [] body := by
  have hacq : acquires F.c (.lambda id ps body) = none := rfl
  have hsum : summaryOf F (.lambda id ps body) = none := rfl
  have hname : nameOf (.lambda id ps body) = none := rfl
  have hops : operands F (.lambda id ps body) = [body] := rfl
  rw [val_eq, hops]
  simp [hacq, hsum, hname]

section Nodes

variable {F : Frame} {K : List Nat} {conds : List Expr} {id : Nat} {pc : LbV} {t : LbT}

theorem follows_named {text : Str} {a : Expr} (h : Follows F K conds a t (lbE F.c a pc t)) :
    Follows F K conds (.named id text a) t (lbE F.c (.named id text a) pc t) := by
  refine ⟨((stands_in.join h.v).at id _).congr ?_, ?_⟩
  · rw [@val_operands F (.named id text a) rfl rfl rfl (by simp)]
    simp [operands]
  · simp only [lbE, lbAt_t]
    rw [esc_parts (by simp), parts, escFrom_cons, escFrom_nil, Set.union_empty]
    exact h.walked

theorem follows_choose_one {c a : Expr} (hc : Follows F K conds c t (lbE F.c c pc t))
    (ha : Follows F (K ++ names (binds c)) (c :: conds) a (lbE F.c c pc t).t
      (lbE F.c a (lvJoin pc (lbE F.c c pc t).v) (lbE F.c c pc t).t)) :
    Follows F K conds (.choose id c a none) t (lbE F.c (.choose id c a none) pc t) := by
  refine ⟨((hc.v.join (ha.v.join stands_in)).at id _).congr ?_, ?_⟩
  · rw [@val_operands F (.choose id c a none) rfl rfl rfl (by simp)]
    simp [operands]
  · simp only [lbE, lbAt_t]
    rw [esc_parts (by simp)]
    exact (hc.walked.trans ha.walked).congr (by simp [binds, names]) (by simp [parts])
      (by simp [strays])

theorem follows_choose {c a b : Expr} (hc : Follows F K conds c t (lbE F.c c pc t))
    (ha : Follows F (K ++ names (binds c)) (c :: conds) a (lbE F.c c pc t).t
      (lbE F.c a (lvJoin pc (lbE F.c c pc t).v) (lbE F.c c pc t).t))
    (hb : Follows F (K ++ names (binds c) ++ names (binds a)) (c :: conds) b
      (lbE F.c a (lvJoin pc (lbE F.c c pc t).v) (lbE F.c c pc t).t).t
      (lbE F.c b (lvJoin pc (lbE F.c c pc t).v)
        (lbE F.c a (lvJoin pc (lbE F.c c pc t).v) (lbE F.c c pc t).t).t)) :
    Follows F K conds (.choose id c a (some b)) t (lbE F.c (.choose id c a (some b)) pc t) := by
  refine ⟨((hc.v.join (ha.v.join hb.v)).at id _).congr ?_, ?_⟩
  · rw [@val_operands F (.choose id c a (some b)) rfl rfl rfl (by simp)]
    simp [operands]
  · simp only [lbE, lbAt_t]
    rw [esc_parts (by simp)]
    refine ((hc.walked.trans ha.walked).trans hb.walked).congr (by simp [binds, names]) ?_ ?_
    · simp [parts, Set.union_assoc]
    · simp [strays, Set.union_assoc]

theorem follows_matchArms {scrut : Expr} {arms : List Arm}
    (hs : Follows F K conds scrut t (lbE F.c scrut pc t))
    (hv : Stands (lbE F.c (.matchArms id scrut arms) pc t).v
      (Val F scrut ∪ From F (arms.map Arm.body)))
    (hw : Walked F (K ++ names (binds scrut) ++ names (armsBinds scrut arms)) (lbE F.c scrut pc t).t
      (lbE F.c (.matchArms id scrut arms) pc t).t
      (EscFrom F (arms.map fun a => (scrut :: conds, a.body))) (From F (armsStrays arms))) :
    Follows F K conds (.matchArms id scrut arms) t (lbE F.c (.matchArms id scrut arms) pc t) := by
  refine ⟨hv.congr ?_, ?_⟩
  · rw [@val_operands F (.matchArms id scrut arms) rfl rfl rfl (by simp), operands, from_cons]
  · rw [esc_parts (by simp)]
    exact (hs.walked.trans hw).congr (by simp [binds, names]) (by simp [parts]) (by simp [strays])

theorem follows_bexpr {bs : List Bind} {last : Expr} {semi : Bool}
    (hw : Walked F (K ++ names (bindsBinds bs)) t (lbBinds F.c bs pc t)
      (EscFrom F (bs.map fun b => (conds, b.value))) (From F (bindsStrays bs)))
    (h : Follows F (K ++ names (bindsBinds bs)) conds last (lbBinds F.c bs pc t)
      (lbE F.c last pc (lbBinds F.c bs pc t))) :
    Follows F K conds (.bexpr id bs last semi) t (lbE F.c (.bexpr id bs last semi) pc t) := by
  have hstate : (lbE F.c (.bexpr id bs last semi) pc t).t =
      (lbE F.c last pc (lbBinds F.c bs pc t)).t := by
    cases semi <;> simp [lbE]
  refine ⟨?_, ?_⟩
  · rw [@val_operands F (.bexpr id bs last semi) rfl rfl rfl (by simp), operands]
    cases semi with
    | true => exact stands_in.congr (by simp)
    | false => exact (h.v.at id _).congr (by simp)
  · rw [hstate, esc_parts (by simp)]
    exact (hw.trans h.walked).congr (by simp [binds, names]) (by simp [parts]) (by simp [strays])

theorem follows_orelse {a b : Expr} (ha : Follows F K conds a t (lbE F.c a pc t))
    (hb : Follows F (K ++ names (binds a)) (a :: conds) b (lbE F.c a pc t).t
      (lbE F.c b (lvJoin pc (lbE F.c a pc t).v) (lbE F.c a pc t).t)) :
    Follows F K conds (.orelse id a b) t (lbE F.c (.orelse id a b) pc t) := by
  refine ⟨((ha.v.join hb.v).at id _).congr ?_, ?_⟩
  · rw [@val_operands F (.orelse id a b) rfl rfl rfl (by simp)]
    simp [operands]
  · simp only [lbE, lbAt_t]
    rw [esc_parts (by simp)]
    exact (ha.walked.trans hb.walked).congr (by simp [binds, names]) (by simp [parts])
      (by simp [strays])

theorem follows_tryExit {a : Expr} (hpc : Stands pc (From F conds))
    (h : Follows F K conds a t (lbE F.c a pc t)) :
    Follows F K conds (.tryExit id a) t (lbE F.c (.tryExit id a) pc t) := by
  have hat := h.v.at id (lbE F.c a pc t).t
  simp only [lbE, lbAt_t]
  refine ⟨hat.congr ?_, h.walked.ready.setRes _, fun R hR => ?_, h.walked.brk⟩
  · rw [@val_operands F (.tryExit id a) rfl rfl rfl (by simp)]
    simp [operands]
  · rw [esc_tryExit, ← Set.union_assoc]
    exact (h.walked.res R hR).join (hat.join hpc)

theorem follows_lambda {ps : List Nat} {body : Expr}
    (h : Follows F K [] body (t.setRes lvIn) (lbE F.c body lvIn (t.setRes lvIn))) :
    Follows F K conds (.lambda id ps body) t (lbE F.c (.lambda id ps body) pc t) := by
  obtain ⟨hres, hin⟩ := h.walked.inside
  refine ⟨((h.v.join hres).at id _).congr (val_lambda id ps body).symm, ?_⟩
  · simp only [lbE, lbAt_t]
    rw [esc_parts (by simp), parts, escFrom_nil]
    exact hin

theorem follows_spawn {body : Stmt} {E : Set Origin}
    (h : Walked F (K ++ names (stmtBinds body)) (t.setRes lvIn)
      (lbS F.c body lvIn (t.setRes lvIn)) E (From F (guards [] body))) :
    Follows F K conds (.spawn id body) t (lbE F.c (.spawn id body) pc t) := by
  refine ⟨(stands_source id _ _).congr ?_, ?_⟩
  · exact (@val_source F (.spawn id body) _ rfl rfl rfl rfl (by simp)).symm
  · rw [esc_parts (by simp), parts, escFrom_nil]
    exact h.inside.2

theorem follows_pat (hF : F.Ok) {a : Expr} (hb : (id, a) ∈ F.binds)
    (h : Follows F K conds a t (lbE F.c a pc t)) :
    Follows F K conds (.pat id a) t (lbE F.c (.pat id a) pc t) := by
  have hat := h.v.at id (lbE F.c a pc t).t
  simp only [lbE, lbAt_t]
  refine ⟨hat.congr ?_, ?_⟩
  · rw [@val_operands F (.pat id a) rfl rfl rfl (by simp)]
    simp [operands]
  · rw [esc_parts (by simp), parts, escFrom_cons, escFrom_nil, Set.union_empty]
    exact (h.walked.bind (hat.congr (hF.unique.named hb).symm)).congr (by simp [binds, names])
      rfl rfl

end Nodes

/-! A binding among others. -/

theorem bindsBinds_cons (b : Bind) (bs : List Bind) :
    bindsBinds (b :: bs) = bindsBinds [b] ++ bindsBinds bs := by
  cases b
  simp [bindsBinds]

theorem bindsStrays_cons (b : Bind) (bs : List Bind) :
    bindsStrays (b :: bs) = bindsStrays [b] ++ bindsStrays bs := by
  cases b
  simp [bindsStrays]

theorem bindsResolved_cons (K : List Nat) (b : Bind) (bs : List Bind) :
    bindsResolved K (b :: bs) =
      (bindsResolved K [b] && bindsResolved (K ++ names (bindsBinds [b])) bs) := by
  cases b
  simp [bindsResolved, bindsBinds, names]

theorem stmtBinds_bind (b : Bind) : stmtBinds (.bind b) = bindsBinds [b] := by
  cases b
  rfl

theorem stmtResolved_bind (K : List Nat) (b : Bind) :
    stmtResolved K (.bind b) = bindsResolved K [b] := by
  cases b
  simp [stmtResolved, bindsResolved]

theorem guards_bind (conds : List Expr) (b : Bind) : guards conds (.bind b) = bindsStrays [b] := by
  cases b
  simp [guards, bindsStrays]

theorem exprs_bind (conds : List Expr) (b : Bind) : exprs conds (.bind b) = [(conds, b.value)] := by
  cases b
  rfl

mutual

theorem lbE_follows {F : Frame} (hF : F.Ok) (e : Expr) {K : List Nat} {conds : List Expr} {pc : LbV}
    {t : LbT} (hr : resolved K e = true) (hb : ∀ p ∈ binds e, p ∈ F.binds) (ht : Ready F K t)
    (hpc : Stands pc (From F conds)) (h : (lbE F.c e pc t).t.err = none) :
    Follows F K conds e t (lbE F.c e pc t) := by
  cases e with
  | lit _ =>
    refine follows_leaf ht rfl rfl rfl rfl (by simp) (stands_in.congr ?_)
    rw [val_operands rfl rfl rfl (by simp), operands, from_nil]
  | ref id text d =>
    cases d with
    | unresolved | builtin =>
      refine follows_leaf ht rfl rfl rfl rfl (by simp) (stands_in.congr ?_)
      rw [val_operands rfl rfl rfl (by simp), operands, from_nil]
    | fn f =>
      refine follows_leaf ht (lbAt_t _ _ _) rfl rfl rfl (by simp) ?_
      have hs := hF.sums f
      rw [← ht.sum] at hs
      refine ((stands_summary hs).at id t).congr ?_
      rw [val_eq, ht.sum]
      ext o
      simp [acquires, summaryOf, nameOf, operands]
    | data d | binder d =>
      refine follows_leaf ht (lbAt_t _ _ _) rfl rfl rfl (by simp) ?_
      simp only [resolved, List.contains_eq_mem, decide_eq_true_eq] at hr
      refine ((ht.env d hr).at id t).congr ?_
      rw [val_eq]
      ext o
      simp [acquires, summaryOf, nameOf, operands]
  | call id text d args =>
    simp only [resolved, Bool.and_eq_true] at hr
    cases d with
    | fn f =>
      refine lbApply_follows hF ht.sum (Or.inl ⟨text, rfl⟩) ?_ ?_ h
      · intro hk
        exact (lbKids_follows hF args hr.2 hb ht hpc stands_in hk).2
      · intro mask acc A hacc ha
        exact lbArgs_follows hF args hr.2 hb ht hpc hacc ha
    | builtin =>
      have hk := lbE_builtin_err h
      obtain ⟨hv, hw⟩ := lbKids_follows hF args hr.2 hb ht hpc stands_in hk
      exact follows_builtin (hv.congr (Set.empty_union _)) hw h
    | binder d =>
      have hd : d ∈ K := by simpa using hr.1
      have hk := lbKids_follows hF args hr.2 hb ht hpc (ht.env d hd) h
      refine ⟨hk.1.congr ?_, ?_⟩
      · rw [val_eq]
        ext o
        simp [acquires, summaryOf, nameOf, operands]
      · rw [esc_parts (by simp)]
        exact hk.2
    | data d | unresolved =>
      have hk := lbKids_follows hF args hr.2 hb ht hpc stands_in h
      refine ⟨hk.1.congr ?_, ?_⟩
      · rw [val_operands rfl rfl rfl (by simp), Set.empty_union]
        rfl
      · rw [esc_parts (by simp)]
        exact hk.2
  | mcall id text d kids =>
    cases d with
    | fn f =>
      refine lbApply_follows hF ht.sum (Or.inr ⟨text, rfl⟩) ?_ ?_ h
      · intro hk
        exact (lbKids_follows hF kids hr hb ht hpc stands_in hk).2
      · intro mask acc A hacc ha
        exact lbArgs_follows hF kids hr hb ht hpc hacc ha
    | builtin | binder d | data d | unresolved =>
      have hk := lbE_method_err (by simp) h
      obtain ⟨hv, hw⟩ := lbKids_follows hF kids hr hb ht hpc stands_in hk
      exact follows_method (by simp) (hv.congr (Set.empty_union _)) hw
  | named id text a =>
    simp only [lbE, lbAt_t] at h
    exact follows_named (lbE_follows hF a hr hb ht hpc h)
  | choose id cond a b =>
    cases b with
    | none =>
      simp only [resolved, Bool.and_eq_true] at hr
      simp only [binds, List.forall_mem_append] at hb
      simp only [lbE, lbAt_t] at h
      have hc := lbE_follows hF cond hr.1 hb.1 ht hpc (lbE_err F.c a _ _ h)
      have hpc2 := hpc.under hc.v
      exact follows_choose_one hc (lbE_follows hF a hr.2.1 hb.2.1 hc.walked.ready hpc2 h)
    | some b =>
      simp only [resolved, Bool.and_eq_true] at hr
      simp only [binds, List.forall_mem_append] at hb
      simp only [lbE, lbAt_t] at h
      have herr := lbE_err F.c b _ _ h
      have hc := lbE_follows hF cond hr.1 hb.1 ht hpc (lbE_err F.c a _ _ herr)
      have hpc2 := hpc.under hc.v
      have ha := lbE_follows hF a hr.2.1 hb.2.1 hc.walked.ready hpc2 herr
      exact follows_choose hc ha (lbE_follows hF b hr.2.2 hb.2.2 ha.walked.ready hpc2 h)
  | matchArms id scrut arms =>
    simp only [resolved, Bool.and_eq_true] at hr
    simp only [binds, List.forall_mem_append] at hb
    have hs := lbE_follows hF scrut hr.1 hb.1 ht hpc (lbArms_err F.c arms _ _ _ _ _ h)
    have ha := lbArms_follows hF arms hr.2 hb.2 hs.walked.ready (hpc.under hs.v) hs.v hs.v h
    exact follows_matchArms hs ha.1 ha.2
  | bexpr id bs last semi =>
    simp only [resolved, Bool.and_eq_true] at hr
    simp only [binds, List.forall_mem_append] at hb
    have hlast : (lbE F.c last pc (lbBinds F.c bs pc t)).t.err = none := by
      cases semi <;> simpa [lbE] using h
    have hw := lbBinds_follows hF bs hr.1 hb.1 ht hpc (lbE_err F.c last _ _ hlast)
    exact follows_bexpr hw (lbE_follows hF last hr.2 hb.2 hw.ready hpc hlast)
  | orelse id a b =>
    simp only [resolved, Bool.and_eq_true] at hr
    simp only [binds, List.forall_mem_append] at hb
    simp only [lbE, lbAt_t] at h
    have ha := lbE_follows hF a hr.1 hb.1 ht hpc (lbE_err F.c b _ _ h)
    exact follows_orelse ha (lbE_follows hF b hr.2 hb.2 ha.walked.ready (hpc.under ha.v) h)
  | tryExit id a =>
    simp only [lbE, lbAt_t] at h
    exact follows_tryExit hpc (lbE_follows hF a hr hb ht hpc h)
  | lambda id ps body =>
    simp only [lbE, lbAt_t] at h
    exact follows_lambda (lbE_follows hF body hr hb (ht.setRes lvIn)
      (stands_in.congr from_nil.symm) h)
  | field id text d a =>
    obtain ⟨hv, hw⟩ := lbE_follows hF a hr hb ht hpc (lbE_field_state F.c id text d a pc t ▸ h)
    exact follows_field hv hw
  | spawn id body =>
    simp only [lbE, lbSource_t] at h
    exact follows_spawn (lbS_follows hF body hr hb (ht.setRes lvIn)
      (stands_in.congr from_nil.symm) h)
  | pat id a =>
    simp only [binds, List.forall_mem_append, List.forall_mem_singleton] at hb
    simp only [lbE, lbAt_t] at h
    exact follows_pat hF hb.2 (lbE_follows hF a hr hb.1 ht hpc h)
  | op id kids =>
    have hk := lbKids_follows hF kids hr hb ht hpc stands_in h
    refine ⟨hk.1.congr ?_, ?_⟩
    · rw [val_operands rfl rfl rfl (by simp), Set.empty_union]
      rfl
    · rw [esc_parts (by simp)]
      exact hk.2
termination_by structural e

theorem lbKids_follows {F : Frame} (hF : F.Ok) (es : List Expr) {K : List Nat} {id : Nat}
    {conds : List Expr} {pc acc : LbV} {t : LbT} {A : Set Origin} (hr : kidsResolved K es = true)
    (hb : ∀ p ∈ kidsBinds es, p ∈ F.binds) (ht : Ready F K t) (hpc : Stands pc (From F conds))
    (hacc : Stands acc A) (h : (lbKids F.c id es pc acc t).t.err = none) :
    Stands (lbKids F.c id es pc acc t).v (A ∪ From F es) ∧
    Walked F (K ++ names (kidsBinds es)) t (lbKids F.c id es pc acc t).t
      (EscFrom F (es.map fun e => (conds, e))) (From F (kidsStrays es)) := by
  cases es with
  | nil =>
    refine ⟨(hacc.at id t).congr (by simp), ?_⟩
    rw [lbKids, lbAt_t]
    exact (Walked.refl ht).congr (by simp [kidsBinds, names]) (by simp) (by simp [kidsStrays])
  | cons e es =>
    simp only [kidsResolved, Bool.and_eq_true] at hr
    simp only [kidsBinds, List.forall_mem_append] at hb
    have he := lbKids_err F.c es _ _ _ _ h
    obtain ⟨hv, hw⟩ := lbE_follows hF e hr.1 hb.1 ht hpc he
    obtain ⟨hv', hw'⟩ := lbKids_follows hF es hr.2 hb.2 hw.ready hpc (hacc.join hv) h
    refine ⟨hv'.congr (by rw [from_cons, Set.union_assoc]), ?_⟩
    exact (hw.trans hw').congr (by simp [kidsBinds, names]) (by simp) (by simp [kidsStrays])
termination_by structural es

theorem lbArgs_follows {F : Frame} (hF : F.Ok) (es : List Expr) {K : List Nat} {f i : Nat}
    {mask : BitVec 64} {conds : List Expr} {pc acc : LbV} {t : LbT} {A : Set Origin}
    (hr : kidsResolved K es = true)
    (hb : ∀ p ∈ kidsBinds es, p ∈ F.binds) (ht : Ready F K t) (hpc : Stands pc (From F conds))
    (hacc : Stands acc A) (h : (lbArgs F.c f es i mask pc acc t).t.err = none) :
    Stands (lbArgs F.c f es i mask pc acc t).v (A ∪ From F (reaching (F.c.fns f) mask i es)) ∧
    Walked F (K ++ names (kidsBinds es)) t (lbArgs F.c f es i mask pc acc t).t
      (EscFrom F (es.map fun e => (conds, e))) (From F (kidsStrays es)) := by
  cases es with
  | nil =>
    refine ⟨hacc.congr (by simp [reaching]), ?_⟩
    exact (Walked.refl ht).congr (by simp [kidsBinds, names]) (by simp) (by simp [kidsStrays])
  | cons e es =>
    simp only [kidsResolved, Bool.and_eq_true] at hr
    simp only [kidsBinds, List.forall_mem_append] at hb
    have he := lbArgs_err F.c es _ _ _ _ _ _ h
    obtain ⟨hv, hw⟩ := lbE_follows hF e hr.1 hb.1 ht hpc he
    have hstep : Stands (if argReaches (F.c.fns f) mask i e then lvJoin acc (lbE F.c e pc t).v
        else acc) (A ∪ if argReaches (F.c.fns f) mask i e then Val F e else ∅) := by
      split_ifs
      · exact hacc.join hv
      · rwa [Set.union_empty]
    obtain ⟨hv', hw'⟩ := lbArgs_follows hF es hr.2 hb.2 hw.ready hpc hstep h
    refine ⟨hv'.congr ?_, ?_⟩
    · rw [reaching, Set.union_assoc]
      split_ifs <;> simp
    · exact (hw.trans hw').congr (by simp [kidsBinds, names]) (by simp) (by simp [kidsStrays])
termination_by structural es

theorem lbArms_follows {F : Frame} (hF : F.Ok) (arms : List Arm) {K : List Nat} {id : Nat}
    {s : Expr} {conds : List Expr} {pc sv acc : LbV} {t : LbT} {A : Set Origin}
    (hr : armsResolved K s arms = true)
    (hb : ∀ p ∈ armsBinds s arms, p ∈ F.binds) (ht : Ready F K t) (hpc : Stands pc (From F conds))
    (hsv : Stands sv (Val F s)) (hacc : Stands acc A)
    (h : (lbArms F.c id arms pc sv acc t).t.err = none) :
    Stands (lbArms F.c id arms pc sv acc t).v (A ∪ From F (arms.map Arm.body)) ∧
    Walked F (K ++ names (armsBinds s arms)) t (lbArms F.c id arms pc sv acc t).t
      (EscFrom F (arms.map fun a => (conds, a.body))) (From F (armsStrays arms)) := by
  cases arms with
  | nil =>
    refine ⟨(hacc.at id t).congr (by simp), ?_⟩
    rw [lbArms, lbAt_t]
    exact (Walked.refl ht).congr (by simp [armsBinds, names]) (by simp) (by simp [armsStrays])
  | cons a arms =>
    obtain ⟨ns, body⟩ := a
    simp only [armsResolved, Bool.and_eq_true] at hr
    simp only [armsBinds, List.forall_mem_append] at hb
    have he := lbArms_err F.c arms _ _ _ _ _ h
    have hns := lbBindKids_walked hF.unique hsv
      (fun n hn => hb.1 (n, s) (List.mem_map.2 ⟨n, hn, rfl⟩)) (Walked.refl ht)
    obtain ⟨hv, hw⟩ := lbE_follows hF body hr.1 hb.2.1 hns.ready hpc he
    obtain ⟨hv', hw'⟩ := lbArms_follows hF arms hr.2 hb.2.2 hw.ready hpc hsv (hacc.join hv) h
    refine ⟨hv'.congr (by rw [List.map_cons, from_cons, Set.union_assoc, Arm.body_mk]), ?_⟩
    refine ((hns.trans hw).trans hw').congr ?_ (by simp) (by simp [armsStrays])
    simp [armsBinds, names, List.map_map, Function.comp_def]
termination_by structural arms

theorem lbBind_follows {F : Frame} (hF : F.Ok) (b : Bind) {K : List Nat} {conds : List Expr}
    {pc : LbV} {t : LbT} (hr : bindsResolved K [b] = true) (hb : ∀ p ∈ bindsBinds [b], p ∈ F.binds)
    (ht : Ready F K t)
    (hpc : Stands pc (From F conds)) (h : (lbBind F.c b pc t).err = none) :
    Walked F (K ++ names (bindsBinds [b])) t (lbBind F.c b pc t)
      (EscFrom F (exprs conds (.bind b))) (From F (bindsStrays [b])) := by
  cases b with
  | mk id e =>
    simp only [bindsResolved, Bool.and_true] at hr
    simp only [bindsBinds, List.forall_mem_append, List.forall_mem_cons] at hb
    simp only [lbBind, lbAt_t] at h ⊢
    obtain ⟨hv, hw⟩ := lbE_follows hF e hr hb.1 ht hpc h
    have hnamed := hF.unique.named hb.2.1
    have hstep := hw.bind ((hv.at id (lbE F.c e pc t).t).congr hnamed.symm)
    exact hstep.congr (by simp [bindsBinds, names]) (by simp [exprs]) (by simp [bindsStrays])
termination_by structural b

theorem lbBinds_follows {F : Frame} (hF : F.Ok) (bs : List Bind) {K : List Nat} {conds : List Expr}
    {pc : LbV} {t : LbT} (hr : bindsResolved K bs = true) (hb : ∀ p ∈ bindsBinds bs, p ∈ F.binds)
    (ht : Ready F K t)
    (hpc : Stands pc (From F conds)) (h : (lbBinds F.c bs pc t).err = none) :
    Walked F (K ++ names (bindsBinds bs)) t (lbBinds F.c bs pc t)
      (EscFrom F (bs.map fun b => (conds, b.value))) (From F (bindsStrays bs)) := by
  cases bs with
  | nil =>
    exact (Walked.refl ht).congr (by simp [bindsBinds, names]) (by simp) (by simp [bindsStrays])
  | cons b bs =>
    have hnone := lbBinds_err F.c (b :: bs) pc t h
    rw [lbBinds, if_neg (by simpa using hnone)] at h ⊢
    rw [bindsResolved_cons, Bool.and_eq_true] at hr
    rw [bindsBinds_cons, List.forall_mem_append] at hb
    have h1 := lbBind_follows hF b hr.1 hb.1 ht hpc (lbBinds_err F.c bs _ _ h)
    have h2 := lbBinds_follows hF bs hr.2 hb.2 h1.ready hpc h
    refine (h1.trans h2).congr ?_ (by simp [exprs_bind]) ?_
    · rw [bindsBinds_cons b bs]
      simp [names]
    · rw [bindsStrays_cons b bs, from_append]
termination_by structural bs

theorem lbS_follows {F : Frame} (hF : F.Ok) (s : Stmt) {K : List Nat} {conds : List Expr} {pc : LbV}
    {t : LbT} (hr : stmtResolved K s = true) (hb : ∀ p ∈ stmtBinds s, p ∈ F.binds)
    (ht : Ready F K t)
    (hpc : Stands pc (From F conds)) (h : (lbS F.c s pc t).err = none) :
    Walked F (K ++ names (stmtBinds s)) t (lbS F.c s pc t) (Sel F conds s)
      (From F (guards conds s)) := by
  cases s with
  | block ss =>
    rw [sel_plain (by simp) rfl]
    exact (lbSeq_follows hF ss hr hb ht hpc h).congr (fun d hd => hd) (by simp [exprs, subs]) rfl
  | bind b =>
    rw [stmtResolved_bind] at hr
    rw [stmtBinds_bind] at hb ⊢
    rw [sel_plain (by simp) rfl, guards_bind]
    exact (lbBind_follows hF b hr hb ht hpc h).congr (fun d hd => hd) (by simp [subs]) rfl
  | letpat id e =>
    simp only [stmtBinds, List.forall_mem_append, List.forall_mem_singleton] at hb
    simp only [lbS, lbAt_t] at h ⊢
    obtain ⟨hv, hw⟩ := lbE_follows hF e hr hb.1 ht hpc h
    have hat := hv.at id (lbE F.c e pc t).t
    rw [sel_plain (by simp) rfl]
    exact (hw.bind (hat.congr (hF.unique.named hb.2).symm)).congr (by simp [stmtBinds, names])
      (by simp [exprs, subs]) rfl
  | destr ns e =>
    simp only [stmtBinds, List.forall_mem_append] at hb
    simp only [lbS, lbBindKids_err] at h ⊢
    obtain ⟨hv, hw⟩ := lbE_follows hF e hr hb.1 ht hpc h
    have hns := lbBindKids_walked hF.unique hv
      (fun n hn => hb.2 (n, e) (List.mem_map.2 ⟨n, hn, rfl⟩)) hw
    rw [sel_plain (by simp) rfl]
    refine hns.congr ?_ (by simp [exprs, subs]) rfl
    simp [stmtBinds, names, List.map_map, Function.comp_def]
  | ret id e =>
    cases e with
    | none =>
      have hat := (stands_in.join hpc).at id t
      rw [Set.empty_union] at hat
      refine ⟨?_, fun R hR => ?_, fun B hB => ?_⟩
      · simp only [lbS, lbAt_t]
        exact (ht.mono (by simp [stmtBinds, names])).setRes _
      · simp only [lbS, lbAt_t]
        exact (hR.join hat).congr (by simp [sel_ret, exprs])
      · simp only [lbS, lbAt_t]
        exact hB.congr (by simp [guards])
    | some e =>
      simp only [lbS, lbAt_t] at h ⊢
      obtain ⟨hv, hw⟩ := lbE_follows hF e hr hb ht hpc h
      have hat := (hv.join hpc).at id (lbE F.c e pc t).t
      refine ⟨hw.ready.setRes _, fun R hR => ?_, hw.brk⟩
      refine ((hw.res R hR).join hat).congr ?_
      simp [sel_ret, exprs, Set.union_assoc]
  | brk id =>
    refine ⟨(ht.mono (by simp [stmtBinds, names])).setBrk _, fun R hR => ?_, fun B hB => ?_⟩
    · rw [sel_plain (by simp) rfl]
      exact hR.congr (by simp [exprs, subs])
    · exact hB.join hpc
  | cont id =>
    refine ⟨(ht.mono (by simp [stmtBinds, names])).setBrk _, fun R hR => ?_, fun B hB => ?_⟩
    · rw [sel_plain (by simp) rfl]
      exact hR.congr (by simp [exprs, subs])
    · exact hB.join hpc
  | cond id c branches =>
    simp only [stmtResolved, Bool.and_eq_true] at hr
    simp only [stmtBinds, List.forall_mem_append] at hb
    simp only [lbS] at h ⊢
    obtain ⟨hvc, hwc⟩ := lbE_follows hF c hr.1 hb.1 ht hpc (lbSeq_err F.c branches _ _ h)
    have hpc2 := hpc.under hvc
    have hw := lbSeq_follows hF branches hr.2 hb.2 hwc.ready hpc2 h
    rw [sel_plain (by simp) rfl]
    exact (hwc.trans hw).congr (by simp [stmtBinds, names]) (by simp [exprs, subs])
      (by simp [guards])
  | «while» id c body =>
    simp only [stmtResolved, Bool.and_eq_true] at hr
    simp only [stmtBinds, List.forall_mem_append] at hb
    simp only [lbS] at h ⊢
    have hc := lbLoop_err (fun pc t => lbS_err F.c body pc t) h
    obtain ⟨hvc, hwc⟩ := lbE_follows hF c hr.1 hb.1 ht hpc hc
    have hpc2 := hpc.under hvc
    have hw := lbLoop_follows (fun d hd => List.mem_append_left (names (stmtBinds body)) hd)
      (fun ht hpc h => lbS_follows hF body hr.2 hb.2 ht hpc h)
      (fun pc t => lbS_err F.c body pc t) hwc.ready hpc2 h
    exact (hwc.trans hw).congr (by simp [stmtBinds, names]) (sel_loop rfl rfl rfl).symm
      (by simp [guards])
  | «for» id it body =>
    simp only [stmtResolved, Bool.and_eq_true] at hr
    simp only [stmtBinds, List.forall_mem_append, List.forall_mem_cons] at hb
    simp only [lbS, lbAt_t] at h ⊢
    have hc := lbLoop_err (fun pc t => lbS_err F.c body pc t) h
    obtain ⟨hvi, hwi⟩ := lbE_follows hF it hr.1 hb.1 ht hpc hc
    have hat := hvi.at id (lbE F.c it pc t).t
    have hwb := hwi.bind (hat.congr (hF.unique.named hb.2.1).symm)
    have hpc2 := hpc.under hvi
    have hw := lbLoop_follows (fun d hd => List.mem_append_left (names (stmtBinds body)) hd)
      (fun ht hpc h => lbS_follows hF body hr.2 hb.2.2 ht hpc h)
      (fun pc t => lbS_err F.c body pc t) hwb.ready hpc2 h
    exact (hwb.trans hw).congr (by simp [stmtBinds, names]) (sel_loop rfl rfl rfl).symm
      (by simp [guards])
  | «with» bs body =>
    simp only [stmtResolved, Bool.and_eq_true] at hr
    simp only [stmtBinds, List.forall_mem_append] at hb
    simp only [lbS] at h ⊢
    have hwb := lbBinds_follows hF bs hr.1 hb.1 ht hpc (lbS_err F.c body _ _ h)
    have hw := lbS_follows hF body hr.2 hb.2 hwb.ready hpc h
    rw [sel_plain (by simp) rfl]
    exact (hwb.trans hw).congr (by simp [stmtBinds, names]) (by simp [exprs, subs])
      (by simp [guards])
  | expr id e =>
    simp only [lbS, lbAt_t] at h ⊢
    obtain ⟨-, hw⟩ := lbE_follows hF e hr hb ht hpc h
    rw [sel_plain (by simp) rfl]
    exact hw.congr (fun d hd => hd) (by simp [exprs, subs]) rfl
termination_by structural s

theorem lbSeq_follows {F : Frame} (hF : F.Ok) (ss : List Stmt) {K : List Nat} {conds : List Expr}
    {pc : LbV} {t : LbT} (hr : seqResolved K ss = true) (hb : ∀ p ∈ seqBinds ss, p ∈ F.binds)
    (ht : Ready F K t)
    (hpc : Stands pc (From F conds)) (h : (lbSeq F.c ss pc t).err = none) :
    Walked F (K ++ names (seqBinds ss)) t (lbSeq F.c ss pc t)
      (SelFrom F (ss.map fun s => (conds, s))) (From F (seqGuards conds ss)) := by
  cases ss with
  | nil =>
    exact (Walked.refl ht).congr (by simp [seqBinds, names]) (by simp) (by simp [seqGuards])
  | cons s ss =>
    have hnone := lbSeq_err F.c (s :: ss) pc t h
    rw [lbSeq, if_neg (by simpa using hnone)] at h ⊢
    simp only [seqResolved, Bool.and_eq_true] at hr
    simp only [seqBinds, List.forall_mem_append] at hb
    have h1 := lbS_follows hF s hr.1 hb.1 ht hpc (lbSeq_err F.c ss _ _ h)
    have h2 := lbSeq_follows hF ss hr.2 hb.2 h1.ready hpc h
    exact (h1.trans h2).congr (by simp [seqBinds, names]) (by simp) (by simp [seqGuards])
termination_by structural ss

end

end Labels
