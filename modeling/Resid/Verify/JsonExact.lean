import Resid.Verify.JsonReads

/-!
# The strict JSON parser is exact, up to one item

The parser returns a value exactly when the bytes are a document of the grammar with the
limits its checks keep, and the limits it checks are one above the stated ones.

    jsonParse b = some (.ok v) ↔ Document Limits.checked b v                  (jsonParse_iff)
    ParsesExactly b ↔ no document of b has a container one over               (parsesExactly_iff)
-/

namespace Verify

open Runtime Scan

/-! ## What may follow a text -/

/-- A text that may follow a value: it ends the whitespace and the numbers before it. -/
structure Follows (r : List Int) : Prop where
  ws : Stops isWs r
  number : NumberEnd r

theorem Follows.nil : Follows [] := ⟨Stops.nil, nofun⟩

theorem Follows.cons {c : Int} {r : List Int} (hws : isWs c = false) (hd : isDigit c = false)
    (hdot : c ≠ 46) (he : c ≠ 101) (hE : c ≠ 69) : Follows (c :: r) := by
  refine ⟨Stops.cons hws, ?_⟩
  intro d s h
  cases h
  exact ⟨hd, hdot, he, hE⟩

theorem Follows.comma {r : List Int} : Follows (44 :: r) :=
  .cons (by decide) (by decide) (by decide) (by decide) (by decide)

theorem Follows.bracket {r : List Int} : Follows (93 :: r) :=
  .cons (by decide) (by decide) (by decide) (by decide) (by decide)

theorem Follows.brace {r : List Int} : Follows (125 :: r) :=
  .cons (by decide) (by decide) (by decide) (by decide) (by decide)

/-- Whitespace ends a number as well. -/
theorem numberEnd_blank {w r : List Int} (hw : Blank w) (hr : Follows r) :
    NumberEnd (w ++ r) := by
  cases w with
  | nil => exact hr.number
  | cons c w =>
    intro d s h
    rw [List.cons_append] at h
    cases h
    have hc : isWs c = true := hw c List.mem_cons_self
    simp only [isWs, Bool.or_eq_true, beq_iff_eq] at hc
    rcases hc with ((rfl | rfl) | rfl) | rfl <;> decide

/-! ## Every text of the grammar is read -/

/-- A value starts with a byte that is neither whitespace nor a closing bracket. -/
theorem value_head {lim : Limits} {room off : Nat} {t : List Int} {v : Json}
    (h : Value lim room off t v) : ∃ c s, t = c :: s ∧ isWs c = false ∧ c ≠ 93 := by
  cases h with
  | num h =>
    cases t with
    | nil => exact absurd h.nonempty (Nat.lt_irrefl 0)
    | cons c s =>
      have hc : isDigit c = true := h.digits c List.mem_cons_self
      simp only [isDigit, Bool.and_eq_true, decide_eq_true_eq] at hc
      refine ⟨c, s, rfl, ?_, by omega⟩
      rw [Bool.eq_false_iff]
      intro hws
      simp only [isWs, Bool.or_eq_true, beq_iff_eq] at hws
      omega
  | null => exact ⟨110, _, rfl, by decide, by decide⟩
  | true => exact ⟨116, _, rfl, by decide, by decide⟩
  | false => exact ⟨102, _, rfl, by decide, by decide⟩
  | neg => exact ⟨45, _, rfl, by decide, by decide⟩
  | str => exact ⟨34, _, rfl, by decide, by decide⟩
  | emptyArr => exact ⟨91, _, rfl, by decide, by decide⟩
  | arr => exact ⟨91, _, rfl, by decide, by decide⟩
  | emptyObj => exact ⟨123, _, rfl, by decide, by decide⟩
  | obj => exact ⟨123, _, rfl, by decide, by decide⟩

theorem jsWord_of_drop {b r : List Int} {i : Nat} {w : String} (h : b.drop i = bytesOf w ++ r) :
    jsWord b i w = true :=
  jsWord_iff.2 ⟨r, h.symm⟩

/-- What `jsValue` decides on, once it has its first byte. -/
theorem jsValue_at {b : List Int} {i depth : Nat} {c : Int} (hdepth : depth ≤ 32)
    (hget : b[i]? = some c) :
    jsValue b i depth =
      if c = 123 then jsObject b (jsWs b (i + 1)) i depth [] [] true
      else if c = 91 then jsArray b (jsWs b (i + 1)) i depth [] true
      else if c = 34 then
        if (jsString b (i + 1) []).err ≠ [] then
          some (jsFail (jsString b (i + 1) []).err (jsString b (i + 1) []).pos)
        else some (jsRead (.jStr (jsString b (i + 1) []).v) i (jsString b (i + 1) []).pos)
      else if jsWord b i "true" then some (jsRead (.jBool true) i (i + 4))
      else if jsWord b i "false" then some (jsRead (.jBool false) i (i + 5))
      else if jsWord b i "null" then some (jsRead .jNull i (i + 4))
      else if c = 45 ∨ (c ≥ 48 ∧ c ≤ 57) then some (jsNumber b i)
      else some (jsFail "unexpected character".toList i) := by
  rw [jsValue_eq, jsValueStep, if_neg (Nat.not_lt.2 hdepth), hget]

theorem jsValue_number {b ds r : List Int} {i depth : Nat} (neg : Bool) (hds : Numeral ds)
    (h : b.drop i = signed neg ds ++ r) (hr : NumberEnd r) (hdepth : depth ≤ 32) :
    jsValue b i depth =
      some (jsRead (.jNum (if neg then 0 - numeralValue ds else numeralValue ds)) i
        (i + (signed neg ds).length)) := by
  obtain ⟨c, hget, hc⟩ : ∃ c, b[i]? = some c ∧ (c = 45 ∨ (c ≥ 48 ∧ c ≤ 57)) := by
    cases neg with
    | true => exact ⟨45, getElem?_of_drop h, .inl rfl⟩
    | false =>
      cases ds with
      | nil => exact absurd hds.nonempty (Nat.lt_irrefl 0)
      | cons c ds =>
        have hd : isDigit c = true := hds.digits c List.mem_cons_self
        simp only [isDigit, Bool.and_eq_true, decide_eq_true_eq] at hd
        exact ⟨c, getElem?_of_drop h, .inr hd⟩
  have htrue := head_of_jsWord (w := "true") (d := 116) hget rfl (by omega)
  have hfalse := head_of_jsWord (w := "false") (d := 102) hget rfl (by omega)
  have hnull := head_of_jsWord (w := "null") (d := 110) hget rfl (by omega)
  rw [jsValue_at hdepth hget, if_neg (by omega), if_neg (by omega), if_neg (by omega), htrue,
    hfalse, hnull, if_neg Bool.false_ne_true, if_neg Bool.false_ne_true,
    if_neg Bool.false_ne_true, if_pos hc, jsNumber_of_numeral h hds hr]

/-- What `jsObject` does once it has read a new member's name. -/
theorem jsObject_name {b n r : List Int} {off depth start : Nat} {k : Str} {ks : List Str}
    {vs : List JsonAt} {first : Bool} (hn : Name n k) (hdrop : b.drop off = n ++ r)
    (hnew : k ∉ ks) (hmax : ks.length ≤ 1024) :
    jsObject b (jsWs b off) start depth ks vs first = (do
      let v ← jsValue b (jsWs b (off + n.length)) (depth + 1)
      if v.err ≠ [] then some v
      else if b[jsWs b v.pos]? = some 44 then
        jsObject b (jsWs b (jsWs b v.pos + 1)) start depth (ks ++ [k]) (vs ++ [v.at']) false
      else if b[jsWs b v.pos]? = some 125 then
        some (jsRead (.jObj (ks ++ [k]) (vs ++ [v.at'])) start (jsWs b v.pos + 1))
      else some (jsFail "expected , or \x7d in an object".toList (jsWs b v.pos))) := by
  obtain @⟨w, m, w', k, hw, hm, hw'⟩ := hn
  have hdrop1 : b.drop off = w ++ (34 :: (m ++ 34 :: (w' ++ 58 :: r))) := by
    simpa only [List.append_assoc, List.cons_append, List.nil_append] using hdrop
  have hdrop2 := drop_add hdrop1
  have hdrop3 := drop_succ hdrop2
  have hdrop4 := drop_succ (drop_add hdrop3)
  have hdrop5 := drop_add hdrop4
  have hget : b[off + w.length]? = some 34 := getElem?_of_drop hdrop2
  have hcolon : b[off + w.length + 1 + m.length + 1 + w'.length]? = some 58 :=
    getElem?_of_drop hdrop5
  have hlen : off + w.length + 1 + m.length + 1 + w'.length + 1 =
      off + (w ++ 34 :: m ++ 34 :: w' ++ [58]).length := by
    simp only [List.length_append, List.length_cons, List.length_nil]
    omega
  have hhas : jsHas ks k 0 = false := by
    rw [Bool.eq_false_iff, Ne, jsHas_iff]
    exact hnew
  rw [jsWs_of_blank hdrop1 hw (Stops.cons (by decide)), jsObject_eq, jsObjectStep, hget, if_neg (by simp),
    if_neg (by omega), if_neg (by simp), jsString_of_chars hm hdrop3, List.nil_append]
  simp only [ne_eq, not_true_eq_false, if_false, hhas, Bool.false_eq_true,
    jsWs_of_blank hdrop4 hw' (Stops.cons (by decide)), hcolon, hlen]

theorem not_mem_of_nodup {ks ks' : List Str} {k : Str} (h : (ks ++ k :: ks').Nodup) :
    k ∉ ks := by
  intro hk
  exact (List.nodup_append.1 h).2.2 k hk k List.mem_cons_self rfl

theorem drop_inside {b u r : List Int} {off : Nat} {o c : Int}
    (h : b.drop off = o :: u ++ [c] ++ r) : b.drop (off + 1) = u ++ c :: r := by
  rw [List.cons_append, List.cons_append, List.append_assoc] at h
  exact drop_succ h

theorem length_enclosed (off : Nat) (u : List Int) (o c : Int) :
    off + 1 + u.length + 1 = off + (o :: u ++ [c]).length := by
  simp only [List.length_append, List.length_cons, List.length_nil]
  omega

mutual

theorem Value.reads {room off : Nat} {t : List Int} {v : Json} {b r : List Int} {depth : Nat}
    (hdrop : b.drop off = t ++ r) (hr : NumberEnd r) (hroom : room + depth ≤ 32) :
    Value .checked room off t v → jsValue b off depth = some (jsRead v off (off + t.length))
  | .null => by
    have hget : b[off]? = some 110 := getElem?_of_drop hdrop
    rw [jsValue_at (by omega) hget, if_neg (by decide), if_neg (by decide), if_neg (by decide),
      head_of_jsWord hget rfl (by decide : (110 : Int) ≠ 116),
      head_of_jsWord hget rfl (by decide : (110 : Int) ≠ 102), jsWord_of_drop hdrop]
    rfl
  | .true => by
    have hget : b[off]? = some 116 := getElem?_of_drop hdrop
    rw [jsValue_at (by omega) hget, if_neg (by decide), if_neg (by decide), if_neg (by decide),
      jsWord_of_drop hdrop]
    rfl
  | .false => by
    have hget : b[off]? = some 102 := getElem?_of_drop hdrop
    rw [jsValue_at (by omega) hget, if_neg (by decide), if_neg (by decide), if_neg (by decide),
      head_of_jsWord hget rfl (by decide : (102 : Int) ≠ 116), jsWord_of_drop hdrop]
    rfl
  | .num h => jsValue_number .false h hdrop hr (by omega)
  | .neg h => by
    rw [jsValue_number .true h hdrop hr (by omega), if_pos rfl, Int.zero_sub]
    rfl
  | .str h => by
    have hget : b[off]? = some 34 := getElem?_of_drop hdrop
    rw [jsValue_at (by omega) hget, if_neg (by decide), if_neg (by decide), if_pos rfl,
      jsString_of_chars h (drop_inside hdrop), if_neg (not_not.2 rfl), List.nil_append,
      length_enclosed]
  | .emptyArr h => by
    have hget : b[off]? = some 91 := getElem?_of_drop hdrop
    have hin := drop_inside hdrop
    rw [jsValue_at (by omega) hget, if_neg (by decide), if_pos rfl,
      jsWs_of_blank hin h (Stops.cons (by decide)), jsArray_eq, jsArrayStep,
      if_pos ⟨getElem?_of_drop (drop_add hin), rfl⟩, length_enclosed]
  | .arr h hmax => by
    have hget : b[off]? = some 91 := getElem?_of_drop hdrop
    rw [Limits.checked] at hmax
    rw [jsValue_at (by omega) hget, if_neg (by decide), if_pos rfl,
      Items.reads off [] .true (drop_inside hdrop) (by omega) (by simpa using hmax) h,
      length_enclosed]
    rfl
  | .emptyObj h => by
    have hget : b[off]? = some 123 := getElem?_of_drop hdrop
    have hin := drop_inside hdrop
    rw [jsValue_at (by omega) hget, if_pos rfl, jsWs_of_blank hin h (Stops.cons (by decide)),
      jsObject_eq, jsObjectStep, if_pos ⟨getElem?_of_drop (drop_add hin), rfl⟩, length_enclosed]
  | .obj h hnd hmax => by
    have hget : b[off]? = some 123 := getElem?_of_drop hdrop
    rw [Limits.checked] at hmax
    rw [jsValue_at (by omega) hget, if_pos rfl,
      Members.reads off [] [] .true (drop_inside hdrop) (by omega) hnd (by simpa using hmax) h,
      length_enclosed]
    rfl

theorem Padded.reads {room off : Nat} {t : List Int} {x : JsonAt} {b r : List Int} {depth : Nat}
    (hdrop : b.drop off = t ++ r) (hr : Follows r) (hroom : room + depth ≤ 32) :
    Padded .checked room off t x →
      jsWs b off = x.start ∧ b[x.start]? ≠ some 93 ∧
      jsValue b x.start depth = some ⟨x, x.stop, []⟩ ∧ jsWs b x.stop = off + t.length
  | @Padded.mk _ _ _ w u w' v hw h hw' => by
    have hdrop1 : b.drop off = w ++ (u ++ (w' ++ r)) := by
      simpa only [List.append_assoc] using hdrop
    have hdrop2 := drop_add hdrop1
    have hdrop3 := drop_add hdrop2
    obtain ⟨c, s, hu, hc, hc93⟩ := value_head h
    have hstart : jsWs b off = off + w.length := by
      refine jsWs_of_blank hdrop1 hw ?_
      rw [hu]
      exact Stops.cons hc
    have hclose : b[off + w.length]? ≠ some 93 := by
      rw [hu] at hdrop2
      rw [getElem?_of_drop hdrop2, Ne, Option.some.injEq]
      exact hc93
    refine ⟨hstart, hclose, Value.reads hdrop2 (numberEnd_blank hw' hr) hroom h, ?_⟩
    have hend := jsWs_of_blank hdrop3 hw' hr.ws
    simp only [JsonAt.stop_mk, hend, List.length_append]
    omega

theorem Items.reads {room off : Nat} {t : List Int} {xs : List JsonAt} {b r : List Int}
    {depth : Nat} (start : Nat) (acc : List JsonAt) (first : Bool)
    (hdrop : b.drop off = t ++ 93 :: r) (hroom : room + (depth + 1) ≤ 32)
    (hmax : acc.length + xs.length ≤ 4097) :
    Items .checked room off t xs →
      jsArray b (jsWs b off) start depth acc first =
        some (jsRead (.jArr (acc ++ xs)) start (off + t.length + 1))
  | .last (v := x) h => by
    obtain ⟨hws, hclose, hval, hend⟩ := Padded.reads hdrop Follows.bracket hroom h
    have hget : b[off + t.length]? = some 93 := getElem?_of_drop (drop_add hdrop)
    rw [List.length_cons, List.length_nil] at hmax
    rw [jsArray_eq, jsArrayStep, hws, if_neg (fun hc => hclose hc.1), if_neg (by omega), hval]
    simp only [Option.bind_eq_bind, Option.bind_some, ne_eq, not_true_eq_false, if_false, hend,
      hget]
    rfl
  | .more (t := t) (r := u) (v := x) h hs => by
    have hdrop' : b.drop off = t ++ 44 :: (u ++ 93 :: r) := by
      simpa only [List.append_assoc, List.cons_append] using hdrop
    obtain ⟨hws, hclose, hval, hend⟩ := Padded.reads hdrop' Follows.comma hroom h
    have hget : b[off + t.length]? = some 44 := getElem?_of_drop (drop_add hdrop')
    have hpos : off + t.length + 1 + u.length + 1 = off + (t ++ 44 :: u).length + 1 := by
      simp only [List.length_append, List.length_cons]
      omega
    rw [List.length_cons] at hmax
    have hrest := Items.reads start (acc ++ [x]) .false (drop_succ (drop_add hdrop')) hroom
      (by rw [List.length_append, List.length_singleton]; omega) hs
    rw [hpos, List.append_assoc] at hrest
    rw [jsArray_eq, jsArrayStep, hws, if_neg (fun hc => hclose hc.1), if_neg (by omega), hval]
    simp only [Option.bind_eq_bind, Option.bind_some, ne_eq, not_true_eq_false, if_false, hend,
      hget, if_true]
    exact hrest

theorem Members.reads {room off : Nat} {t : List Int} {ks : List Str} {vs : List JsonAt}
    {b r : List Int} {depth : Nat} (start : Nat) (ks0 : List Str) (vs0 : List JsonAt)
    (first : Bool) (hdrop : b.drop off = t ++ 125 :: r) (hroom : room + (depth + 1) ≤ 32)
    (hnd : (ks0 ++ ks).Nodup) (hmax : ks0.length + ks.length ≤ 1025) :
    Members .checked room off t ks vs →
      jsObject b (jsWs b off) start depth ks0 vs0 first =
        some (jsRead (.jObj (ks0 ++ ks) (vs0 ++ vs)) start (off + t.length + 1))
  | .last (n := n) (t := t) (k := k) (v := x) hn h => by
    have hdrop1 : b.drop off = n ++ (t ++ 125 :: r) := by
      simpa only [List.append_assoc] using hdrop
    obtain ⟨hws, -, hval, hend⟩ := Padded.reads (drop_add hdrop1) Follows.brace hroom h
    have hlen : off + n.length + t.length = off + (n ++ t).length := by
      rw [List.length_append, Nat.add_assoc]
    have hget : b[off + (n ++ t).length]? = some 125 := getElem?_of_drop (drop_add hdrop)
    rw [List.length_singleton] at hmax
    rw [jsObject_name hn hdrop1 (not_mem_of_nodup hnd) (by omega), hws, hval]
    simp only [Option.bind_eq_bind, Option.bind_some, ne_eq, not_true_eq_false, if_false, hend,
      hlen, hget]
    rfl
  | .more (n := n) (t := t) (r := u) (k := k) (v := x) hn h hs => by
    have hdrop' : b.drop off = n ++ t ++ 44 :: (u ++ 125 :: r) := by
      simpa only [List.append_assoc, List.cons_append] using hdrop
    have hdrop1 : b.drop off = n ++ (t ++ 44 :: (u ++ 125 :: r)) := by
      rw [hdrop', List.append_assoc]
    obtain ⟨hws, -, hval, hend⟩ := Padded.reads (drop_add hdrop1) Follows.comma hroom h
    have hlen : off + n.length + t.length = off + (n ++ t).length := by
      rw [List.length_append, Nat.add_assoc]
    have hget : b[off + (n ++ t).length]? = some 44 := getElem?_of_drop (drop_add hdrop')
    have hpos : off + (n ++ t).length + 1 + u.length + 1 =
        off + (n ++ t ++ 44 :: u).length + 1 := by
      simp only [List.length_append, List.length_cons]
      omega
    have hnew := not_mem_of_nodup hnd
    rw [List.length_cons] at hmax
    rw [List.append_cons] at hnd
    have hrest := Members.reads start (ks0 ++ [k]) (vs0 ++ [x]) .false
      (drop_succ (drop_add hdrop')) hroom hnd
      (by rw [List.length_append, List.length_singleton]; omega) hs
    rw [hpos, List.append_assoc, List.append_assoc] at hrest
    rw [jsObject_name hn hdrop1 hnew (by omega), hws, hval]
    simp only [Option.bind_eq_bind, Option.bind_some, ne_eq, not_true_eq_false, if_false, hend,
      hlen, hget, if_true]
    exact hrest

end

/-! ## Whole documents -/

theorem document_of_jsonParse {b : List Int} {v : JsonAt} (h : jsonParse b = some (.ok v)) :
    Document .checked b v := by
  rw [jsonParse] at h
  by_cases hsize : b.length > 1048576
  · rw [if_pos hsize] at h
    cases h
  obtain ⟨p, hp, hread⟩ := (reads b (jsWs b 0)).1 0
  rw [if_neg hsize, hp] at h
  simp only [Option.bind_eq_bind, Option.bind_some] at h
  by_cases herr : p.err = []
  swap
  · rw [if_pos herr] at h
    cases h
  obtain ⟨-, t, x, hdrop, hx, rfl⟩ := hread herr
  obtain ⟨w, hdropw, hw, hposw, -⟩ := blank_of_jsWs b 0
  obtain ⟨u, hpad, hdropu, hend⟩ := padded_of_value hdrop hx
  rw [if_neg (not_not.2 herr)] at h
  simp only [jsRead, hend] at h
  by_cases hlast : jsWs b 0 + u.length = b.length
  swap
  · rw [if_pos hlast] at h
    cases h
  rw [if_neg (not_not.2 hlast)] at h
  cases h
  rw [hlast, List.drop_length, List.append_nil] at hdropu
  have hb : b = w ++ u := by
    rw [← hdropu, ← hdropw, List.drop_zero]
  refine ⟨Nat.le_of_not_lt hsize, ?_⟩
  have htext : Padded .checked 32 0 (w ++ u) _ := Padded.blank hw (hposw ▸ hpad)
  rw [← hb] at htext
  rw [hposw]
  exact htext

theorem jsonParse_of_document {b : List Int} {v : JsonAt} (h : Document .checked b v) :
    jsonParse b = some (.ok v) := by
  have hdrop : b.drop 0 = b ++ [] := (List.append_nil b).symm
  obtain ⟨hws, -, hval, hend⟩ := Padded.reads hdrop Follows.nil (Nat.le_refl (32 + 0)) h.text
  rw [Nat.zero_add] at hend
  rw [jsonParse, if_neg (Nat.not_lt.2 h.size), hws, hval]
  simp only [Option.bind_eq_bind, Option.bind_some, ne_eq, not_true_eq_false, if_false, hend]

/-- The parser reads exactly the documents within the limits its checks keep. -/
theorem jsonParse_iff (b : List Int) (v : JsonAt) :
    jsonParse b = some (.ok v) ↔ Document .checked b v :=
  ⟨document_of_jsonParse, jsonParse_of_document⟩

/-- The bytes `b[i..j)`. -/
def slice (b : List Int) (i j : Nat) : List Int := (b.drop i).take (j - i)

/-- The bytes a value spans parse to that value, standing at the start. -/
theorem jsonParse_slice {b : List Int} {v p : JsonAt} (h : Document .checked b v)
    (hp : Part p v) : jsonParse (slice b p.start p.stop) = some (.ok (p.back p.start)) := by
  obtain ⟨pre, u, post, rfl, hstart, hstop, hu⟩ := h.text.part hp
  have hslice : slice (pre ++ u ++ post) p.start p.stop = u := by
    rw [slice, hstop, Nat.add_sub_cancel_left, hstart, Nat.zero_add, List.append_assoc,
      List.drop_left, List.take_left]
  rw [hslice]
  refine jsonParse_of_document ⟨?_, ?_⟩
  · have hsize := h.size
    simp only [List.length_append] at hsize
    omega
  · have hpad : Padded .checked 32 (p.start + 0) ([] ++ u ++ []) _ := .mk Blank.nil hu Blank.nil
    have hback := hpad.back
    rw [List.append_nil, List.nil_append] at hback
    obtain ⟨x, i, j⟩ := p
    rw [JsonAt.start_mk, JsonAt.stop_mk] at hstop
    subst hstop
    exact hback

/-- What strict parsing of `b` is: the value of the one document `b` spells under the stated
limits, every value in it spanning exactly its own text. -/
structure ParsesExactly (b : List Int) : Prop where
  accepted : ∀ v, jsonParse b = some (.ok v) ↔ Document .stated b v
  spans : ∀ v, jsonParse b = some (.ok v) → ∀ p, Part p v →
    Spans .stated 32 0 b p ∧ jsonParse (slice b p.start p.stop) = some (.ok (p.back p.start))

/-- `b` spells a value in which a container holds exactly one item more than it may: an array
of 4097 values or an object of 1025 members, and none holds more than that. -/
def OneOver (b : List Int) : Prop :=
  ∃ v p, Document .checked b v ∧ Part p v ∧ p.v.over .stated

theorem Document.tighten {lim lim' : Limits} {b : List Int} {v : JsonAt}
    (h : Document lim b v) (hover : ∀ p, Part p v → ¬ p.v.over lim') : Document lim' b v :=
  ⟨h.size, h.text.tighten hover⟩

theorem Document.checked_of_stated {b : List Int} {v : JsonAt} (h : Document .stated b v) :
    Document .checked b v := by
  apply h.tighten
  intro p hp hover
  apply h.text.not_over hp
  cases hv : p.v with
  | jArr xs =>
    rw [hv] at hover
    exact Nat.lt_trans (Nat.lt_succ_self 4096) hover
  | jObj ks vs =>
    rw [hv] at hover
    exact Nat.lt_trans (Nat.lt_succ_self 1024) hover
  | _ =>
    rw [hv] at hover
    exact hover

/-- Strict parsing is exact on all bytes but those with a container one over its limit. -/
theorem parsesExactly_iff (b : List Int) : ParsesExactly b ↔ ¬ OneOver b := by
  constructor
  · rintro hexact ⟨v, p, hdoc, hp, hover⟩
    have hstated := (hexact.accepted v).1 ((jsonParse_iff b v).2 hdoc)
    exact hstated.text.not_over hp hover
  · intro hnone
    have hstated : ∀ v, Document .checked b v → Document .stated b v := by
      intro v hdoc
      exact hdoc.tighten fun p hp hover => hnone ⟨v, p, hdoc, hp, hover⟩
    constructor
    · intro v
      rw [jsonParse_iff]
      exact ⟨hstated v, Document.checked_of_stated⟩
    · intro v hv p hp
      rw [jsonParse_iff] at hv
      exact ⟨(hstated v hv).text.part hp, jsonParse_slice hv hp⟩

/-- The text of `n + 1` zeros with commas between them. -/
def zeros : Nat → List Int
  | 0 => [48]
  | n + 1 => [48] ++ 44 :: zeros n

theorem length_zeros (n : Nat) : (zeros n).length = 2 * n + 1 := by
  induction n with
  | zero => rfl
  | succ n ih =>
    simp only [zeros, List.length_append, List.length_cons, List.length_nil, ih]
    omega

theorem items_zeros (lim : Limits) (room n off : Nat) :
    ∃ xs, Items lim room off (zeros n) xs ∧ xs.length = n + 1 := by
  have hzero : ∀ off, ∃ x, Padded lim room off [48] x := by
    intro off
    have hnum : Numeral [48] := ⟨by decide, by decide, by decide, by decide⟩
    exact ⟨_, .mk Blank.nil (.num hnum) Blank.nil⟩
  induction n generalizing off with
  | zero =>
    obtain ⟨x, hx⟩ := hzero off
    exact ⟨[x], .last hx, rfl⟩
  | succ n ih =>
    obtain ⟨x, hx⟩ := hzero off
    obtain ⟨xs, hxs, hlen⟩ := ih (off + [(48 : Int)].length + 1)
    exact ⟨x :: xs, .more hx hxs, by rw [List.length_cons, hlen]⟩

/-- An array of 4097 zeros is accepted. -/
theorem zeros_not_parsesExactly : ¬ ParsesExactly (91 :: zeros 4096 ++ [93]) := by
  intro hexact
  obtain ⟨xs, hxs, hlen⟩ := items_zeros .checked 31 4096 1
  have hdoc : Document .checked (91 :: zeros 4096 ++ [93])
      (.mk (.jArr xs) 0 (91 :: zeros 4096 ++ [93]).length) := by
    refine ⟨?_, ?_⟩
    · rw [List.length_append, List.length_cons, length_zeros]
      decide
    · have harr : Value .checked 32 (0 + ([] : List Int).length) (91 :: zeros 4096 ++ [93])
          (.jArr xs) := .arr hxs (Nat.le_of_eq hlen)
      have hpad := Padded.mk Blank.nil harr Blank.nil
      rw [List.append_nil, List.nil_append, List.length_nil, Nat.zero_add, Nat.zero_add] at hpad
      exact hpad
  have hstated := (hexact.accepted _).1 (jsonParse_of_document hdoc)
  apply hstated.text.not_over .self
  exact Nat.lt_of_lt_of_eq (Nat.lt_succ_self 4096) hlen.symm

end Verify
