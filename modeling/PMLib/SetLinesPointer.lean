import PMLib.SetLines
import PMLib.Lib.ReadLog

/-! # The pointer of the selection parser

The main loop of `pm_set_lines` over memory, in which the string ends with a terminator and
something else follows. The loop ends, and what it reads is inside of the string. -/
namespace PMLib.SetLines

open ReadLog (Reading Within readAt loop)

def memory (s : List Char) (rest : ℕ → Char) : ℕ → Char := fun i => (s ++ [nul]).getD i (rest i)

structure Cursor where
  p : ℕ
  sep : Char
  l : ℤ
  lineas : List ℤ
  deriving DecidableEq, Repr

def numberAt (mem : ℕ → Char) (q : ℕ) : Reading (ℤ × ℕ) := do
  let c1 ← readAt mem (q + 1)
  if isSeparator c1 then
    let c0 ← readAt mem q
    pure (atoi ([c0] ++ ['\n']), 1)
  else
    let c2 ← readAt mem (q + 2)
    let c0 ← readAt mem q
    if isSeparator c2 then pure (atoi ([c0, c1] ++ ['\n']), 2)
    else pure (atoi ([c0, c1, c2] ++ ['\n']), 3)

/-- The test of the loop and one pass. The result is what has been found, or `none` for the
return of an error. -/
def body (mem : ℕ → Char) (w : Cursor) : Reading (Cursor ⊕ Option (List ℤ)) := do
  let c ← readAt mem w.p
  if c = nul then pure (.inr (some w.lineas))
  else if c ≠ '-' ∧ c ≠ ',' then
    let (l, n) ← numberAt mem w.p
    let d ← readAt mem (w.p + n)
    pure (.inl { w with
      p := w.p + n
      l
      lineas := if d = nul then w.lineas ++ [l] else w.lineas })
  else if c = '-' then
    let d ← readAt mem (w.p + 1)
    if isSeparator d then pure (.inr none)
    else
      let (l1, n) ← numberAt mem (w.p + 1)
      pure (.inl { w with
        p := w.p + 1 + n
        sep := '-'
        lineas := w.lineas ++ (List.range (l1 + 1 - w.l).toNat).map fun i : ℕ => w.l + i })
  else if w.sep = '-' then pure (.inl { w with p := w.p + 1, sep := ',' })
  -- with any other `sep` the pointer would stay where it is
  else if w.sep = ',' then pure (.inl { w with p := w.p + 1, lineas := w.lineas ++ [w.l] })
  else pure (.inl w)

def Cursor.start (l : ℤ) : Cursor := ⟨0, ',', l, []⟩

/-! ## What lies where -/

section Memory

variable {s : List Char} {rest : ℕ → Char} {i p q k : ℕ} {c : Char}

@[simp] theorem memory_length (s : List Char) (rest : ℕ → Char) :
    memory s rest s.length = nul := by
  simp [memory]

theorem getElem?_memory (rest : ℕ → Char) (hi : i ≤ s.length) :
    (s ++ [nul])[i]? = some (memory s rest i) := by
  have hlt : i < (s ++ [nul]).length := by
    rw [List.length_append, List.length_singleton]
    omega
  rw [memory, List.getD_eq_getElem?_getD, List.getElem?_eq_getElem hlt, Option.getD_some]

theorem deref_drop (h : p + k ≤ s.length) :
    deref (s.drop p) k = .done (memory s rest (p + k)) := by
  have hdrop : s.drop p ++ [nul] = (s ++ [nul]).drop p :=
    (List.drop_append_of_le_length (by omega)).symm
  rw [deref, hdrop, List.getElem?_drop, getElem?_memory rest h, Outcome.ofOption_some]

theorem isSeparator_nul : isSeparator nul = true := by decide

theorem memory_eq_nul_iff (rest : ℕ → Char) (hs : checkChars s = true) (hi : i ≤ s.length) :
    memory s rest i = nul ↔ i = s.length := by
  constructor
  · intro h
    by_contra hne
    have hget := getElem?_memory rest hi
    rw [List.getElem?_append_left (by omega), h] at hget
    have := List.all_eq_true.mp hs nul (List.mem_of_getElem? hget)
    revert this
    decide
  · rintro rfl
    exact memory_length s rest

theorem drop_eq_cons (rest : ℕ → Char) (hi : i < s.length) :
    s.drop i = memory s rest i :: s.drop (i + 1) := by
  have hget := getElem?_memory rest hi.le
  rw [List.getElem?_append_left hi, List.getElem?_eq_getElem hi] at hget
  rw [List.drop_eq_getElem_cons hi, Option.some.inj hget]

theorem lt_of_not_separator (hle : i ≤ s.length)
    (h : isSeparator (memory s rest i) = false) : i < s.length := by
  rcases Nat.lt_or_ge i s.length with hlt | hge
  · exact hlt
  · obtain rfl : i = s.length := by omega
    rw [memory_length, isSeparator_nul] at h
    cases h

end Memory

/-! ## One pass -/

section Pass

variable {s : List Char} {rest : ℕ → Char} {f : Scratch}

theorem readCad_done {cs : List Char} {v : ℤ} (h : readCad f cs = .done v) :
    v = atoi (cs ++ ['\n']) := by
  unfold readCad at h
  split_ifs at h
  exact (Outcome.done.inj h).symm

theorem push_done {lineas lineas' : List ℤ} {v : ℤ} (h : push f lineas v = .done lineas') :
    lineas' = lineas ++ [v] := by
  unfold push at h
  split_ifs at h
  exact (Outcome.done.inj h).symm

theorem pushRange_done {lineas lineas' : List ℤ} {l l1 : ℤ}
    (h : pushRange f lineas l l1 = .done lineas') :
    lineas' = lineas ++ (List.range (l1 + 1 - l).toNat).map fun i : ℕ => l + i := by
  unfold pushRange at h
  generalize (l1 + 1 - l).toNat = k at h ⊢
  induction k generalizing lineas' with
  | zero => simpa [eq_comm] using h
  | succ k ih =>
    rw [List.range_succ, List.foldlM_append, Outcome.bind_eq_done] at h
    obtain ⟨a, ha, h⟩ := h
    rw [List.foldlM_cons, Outcome.bind_eq_done] at h
    obtain ⟨b, hb, h⟩ := h
    obtain rfl : b = lineas' := Outcome.done.inj h
    rw [push_done hb, ih ha, List.range_succ, List.map_append, List.append_assoc,
      List.map_singleton]

/-- A number at a character of the string ends inside of it. It is the one that the parser of
lists finds, if that has room for it. -/
theorem numberAt_within {q : ℕ} (hq : q < s.length) :
    Within s.length (numberAt (memory s rest) q) fun r =>
      0 < r.2 ∧ q + r.2 ≤ s.length ∧
        ∀ f t, number f (s.drop q) = .done t → t = (r.1, r.2 - 1) := by
  have hzero : deref (s.drop q) 0 = .done (memory s rest q) := deref_drop (by omega)
  have hone : deref (s.drop q) 1 = .done (memory s rest (q + 1)) := deref_drop (by omega)
  refine (Within.readAt (by omega)).bind ?_
  rintro _ rfl
  cases hsep₁ : isSeparator (memory s rest (q + 1)) with
  | true =>
    refine (Within.readAt (by omega)).bind ?_
    rintro _ rfl
    refine .pure ⟨by omega, by omega, fun f t ht => ?_⟩
    simp only [number, hzero, hone, hsep₁, if_true, Outcome.done_bind, Outcome.bind_eq_done] at ht
    obtain ⟨v, hv, ht⟩ := ht
    obtain rfl := readCad_done hv
    exact (Outcome.done.inj ht).symm
  | false =>
    have hlt := lt_of_not_separator (by omega) hsep₁
    have htwo : deref (s.drop q) 2 = .done (memory s rest (q + 2)) := deref_drop (by omega)
    refine (Within.readAt (by omega)).bind ?_
    rintro _ rfl
    refine (Within.readAt (by omega)).bind ?_
    rintro _ rfl
    cases hsep₂ : isSeparator (memory s rest (q + 2)) with
    | true =>
      refine .pure ⟨by omega, by omega, fun f t ht => ?_⟩
      simp only [number, hzero, hone, htwo, hsep₁, hsep₂, if_true, Bool.false_eq_true, if_false,
        Outcome.done_bind, Outcome.bind_eq_done] at ht
      obtain ⟨v, hv, ht⟩ := ht
      obtain rfl := readCad_done hv
      exact (Outcome.done.inj ht).symm
    | false =>
      have hlt' := lt_of_not_separator (by omega) hsep₂
      refine .pure ⟨by omega, by omega, fun f t ht => ?_⟩
      simp only [number, hzero, hone, htwo, hsep₁, hsep₂, Bool.false_eq_true, if_false,
        Outcome.done_bind, Outcome.bind_eq_done] at ht
      obtain ⟨v, hv, ht⟩ := ht
      obtain rfl := readCad_done hv
      exact (Outcome.done.inj ht).symm

section Lists

variable {sep c d : Char} {q : List Char} {l v : ℤ} {n : ℕ} {lineas : List ℤ} {t : Option (List ℤ)}

theorem walk_number_done (hc : c ≠ '-' ∧ c ≠ ',')
    (hnum : ∀ r, number f (c :: q) = .done r → r = (v, n))
    (h : walk f (c :: q) sep l lineas = .done t) :
    walk f (q.drop n) sep v (if q.drop n = [] then lineas ++ [v] else lineas) = .done t := by
  rw [walk, if_pos hc, Outcome.bind_eq_done] at h
  obtain ⟨r, hr, h⟩ := h
  obtain rfl := hnum r hr
  by_cases hend : q.drop n = []
  · rw [if_pos hend]
    simp only [hend, if_true, Outcome.bind_eq_done] at h ⊢
    obtain ⟨lineas', hpush, h⟩ := h
    rwa [← push_done hpush]
  · rw [if_neg hend]
    simpa only [hend, if_false, Outcome.done_bind] using h

theorem walk_dash_error (hderef : deref q 0 = .done d) (hd : isSeparator d = true)
    (h : walk f ('-' :: q) sep l lineas = .done t) : t = none := by
  rw [walk, if_neg (by decide), if_pos rfl, hderef, Outcome.done_bind, if_pos hd] at h
  exact (Outcome.done.inj h).symm

theorem walk_dash_done (hderef : deref q 0 = .done d) (hd : isSeparator d = false)
    (hnum : ∀ r, number f q = .done r → r = (v, n))
    (h : walk f ('-' :: q) sep l lineas = .done t) :
    walk f (q.drop (n + 1)) '-' l
      (lineas ++ (List.range (v + 1 - l).toNat).map fun i : ℕ => l + i) = .done t := by
  rw [walk, if_neg (by decide), if_pos rfl, hderef, Outcome.done_bind, hd,
    if_neg Bool.false_ne_true, Outcome.bind_eq_done] at h
  obtain ⟨r, hr, h⟩ := h
  obtain rfl := hnum r hr
  obtain ⟨lineas', hpush, h⟩ := Outcome.bind_eq_done.mp h
  rwa [← pushRange_done hpush]

theorem walk_comma_done (hsep : sep = '-' ∨ sep = ',')
    (h : walk f (',' :: q) sep l lineas = .done t) :
    (sep = '-' → walk f q ',' l lineas = .done t) ∧
      (sep = ',' → walk f q ',' l (lineas ++ [l]) = .done t) := by
  rw [walk, if_neg (by decide), if_neg (by decide)] at h
  constructor
  · rintro rfl
    rwa [if_pos rfl] at h
  · rintro rfl
    rw [if_neg (by decide)] at h
    obtain ⟨lineas', hpush, h⟩ := Outcome.bind_eq_done.mp h
    rwa [← push_done hpush]

end Lists

/-- The pointer is in the string, and `sep` is one of the two flags. What the parser of lists
returns from here is what it returns on the whole string. -/
structure Inside (s : List Char) (l : ℤ) (w : Cursor) : Prop where
  le : w.p ≤ s.length
  sep : w.sep = '-' ∨ w.sep = ','
  walk : ∀ f t, walk f s ',' l [] = .done t → walk f (s.drop w.p) w.sep w.l w.lineas = .done t

theorem Inside.start (s : List Char) (l : ℤ) : Inside s l (.start l) :=
  ⟨Nat.zero_le _, .inr rfl, fun _ _ h => h⟩

section Branches

variable {l v : ℤ} {n : ℕ} {w : Cursor}

theorem Inside.number (h : Inside s l w) (hs : checkChars s = true) (hlt : w.p < s.length)
    (hc : memory s rest w.p ≠ '-' ∧ memory s rest w.p ≠ ',') (hn : 0 < n)
    (hin : w.p + n ≤ s.length)
    (hnum : ∀ f r, SetLines.number f (s.drop w.p) = .done r → r = (v, n - 1)) :
    Inside s l { w with
      p := w.p + n
      l := v
      lineas := if memory s rest (w.p + n) = nul then w.lineas ++ [v] else w.lineas } := by
  refine ⟨hin, h.sep, fun f t ht => ?_⟩
  have hnext := h.walk f t ht
  rw [drop_eq_cons rest hlt] at hnext hnum
  have hstep := walk_number_done hc (hnum f) hnext
  have hrest : (s.drop (w.p + 1)).drop (n - 1) = s.drop (w.p + n) := by
    rw [List.drop_drop]
    congr 1
    omega
  have hend : memory s rest (w.p + n) = nul ↔ s.drop (w.p + n) = [] := by
    rw [memory_eq_nul_iff rest hs hin, List.drop_eq_nil_iff]
    omega
  simpa only [hrest, hend] using hstep

theorem Inside.range (h : Inside s l w) (hdrop : s.drop w.p = '-' :: s.drop (w.p + 1))
    {d : Char} (hderef : deref (s.drop (w.p + 1)) 0 = .done d) (hd : isSeparator d = false)
    (hn : 0 < n) (hin : w.p + 1 + n ≤ s.length)
    (hnum : ∀ f r, SetLines.number f (s.drop (w.p + 1)) = .done r → r = (v, n - 1)) :
    Inside s l { w with
      p := w.p + 1 + n
      sep := '-'
      lineas := w.lineas ++ (List.range (v + 1 - w.l).toNat).map fun i : ℕ => w.l + i } := by
  refine ⟨hin, .inl rfl, fun f t ht => ?_⟩
  have hstep := walk_dash_done hderef hd (hnum f) (hdrop ▸ h.walk f t ht)
  rwa [List.drop_drop, Nat.sub_add_cancel hn] at hstep

/-- A comma behind a range only takes the flag back. -/
theorem Inside.flag (h : Inside s l w) (hlt : w.p < s.length)
    (hdrop : s.drop w.p = ',' :: s.drop (w.p + 1)) (hflag : w.sep = '-') :
    Inside s l { w with p := w.p + 1, sep := ',' } :=
  ⟨hlt, .inr rfl, fun f t ht =>
    (walk_comma_done (.inl hflag) (hdrop ▸ h.walk f t ht)).1 hflag⟩

theorem Inside.single (h : Inside s l w) (hlt : w.p < s.length)
    (hdrop : s.drop w.p = ',' :: s.drop (w.p + 1)) (hflag : w.sep = ',') :
    Inside s l { w with p := w.p + 1, lineas := w.lineas ++ [w.l] } := by
  refine ⟨hlt, .inr hflag, fun f t ht => ?_⟩
  have hstep := (walk_comma_done (.inr hflag) (hdrop ▸ h.walk f t ht)).2 hflag
  simpa only [hflag] using hstep

theorem body_within (hs : checkChars s = true) (h : Inside s l w) :
    Within s.length (body (memory s rest) w)
      (Sum.elim (fun w' => Inside s l w' ∧ s.length - w'.p < s.length - w.p)
        fun r => ∀ f t, walk f s ',' l [] = .done t → r = t) := by
  refine (Within.readAt h.le).bind ?_
  rintro _ rfl
  by_cases hnul : memory s rest w.p = nul
  · rw [if_pos hnul]
    refine .pure fun f t ht => ?_
    have hend := h.walk f t ht
    rw [(memory_eq_nul_iff rest hs h.le).mp hnul, List.drop_length, walk] at hend
    exact Outcome.done.inj hend
  have hlt : w.p < s.length := by
    have := mt (memory_eq_nul_iff rest hs h.le).mpr hnul
    have := h.le
    omega
  have hdrop : s.drop w.p = memory s rest w.p :: s.drop (w.p + 1) := drop_eq_cons rest hlt
  rw [if_neg hnul]
  by_cases hnumber : memory s rest w.p ≠ '-' ∧ memory s rest w.p ≠ ','
  · rw [if_pos hnumber]
    refine (numberAt_within hlt).bind ?_
    rintro ⟨v, n⟩ ⟨hn, hin, hnum⟩
    refine (Within.readAt hin).bind ?_
    rintro _ rfl
    exact .pure ⟨h.number hs hlt hnumber hn hin hnum, by dsimp only; omega⟩
  rw [if_neg hnumber]
  by_cases hdash : memory s rest w.p = '-'
  · rw [if_pos hdash]
    rw [hdash] at hdrop
    have hderef : deref (s.drop (w.p + 1)) 0 = .done (memory s rest (w.p + 1)) :=
      deref_drop (by omega)
    refine (Within.readAt (by omega)).bind ?_
    rintro _ rfl
    cases hnext : isSeparator (memory s rest (w.p + 1)) with
    | true =>
      refine .pure fun f t ht => ?_
      exact (walk_dash_error hderef hnext (hdrop ▸ h.walk f t ht)).symm
    | false =>
      refine (numberAt_within (lt_of_not_separator (by omega) hnext)).bind ?_
      rintro ⟨v, n⟩ ⟨hn, hin, hnum⟩
      exact .pure ⟨h.range hdrop hderef hnext hn hin hnum, by dsimp only; omega⟩
  · rw [if_neg hdash]
    have hcomma : memory s rest w.p = ',' := by
      by_contra hne
      exact hnumber ⟨hdash, hne⟩
    rw [hcomma] at hdrop
    -- `sep` is a dash or a comma, so that no pass leaves the pointer where it is
    rcases h.sep with hflag | hflag
    · rw [if_pos hflag]
      exact .pure ⟨h.flag hlt hdrop hflag, by dsimp only; omega⟩
    · rw [if_neg (by rw [hflag]; decide), if_pos hflag]
      exact .pure ⟨h.single hlt hdrop hflag, by dsimp only; omega⟩

end Branches

end Pass

/-! ## The loop -/

section Loop

variable {s : List Char}

theorem loop_within (hs : checkChars s = true) (rest : ℕ → Char) (l : ℤ) :
    Within s.length (loop (body (memory s rest)) (s.length + 1) (.inl (.start l))) fun t =>
      ∃ r, t = .inr r ∧ ∀ f t, walk f s ',' l [] = .done t → r = t :=
  Within.loop (fun w : Cursor => s.length - w.p) (fun _ hw => body_within hs hw)
    (Inside.start s l) (Nat.lt_succ_of_le (Nat.sub_le _ _))

/-- Where the buffers suffice for it, the parser of lists has the result of the loop. -/
theorem loop_eq_walk (hs : checkChars s = true) (rest : ℕ → Char) {f : Scratch} {l : ℤ}
    {t : Option (List ℤ)} (h : walk f s ',' l [] = .done t) :
    (loop (body (memory s rest)) (s.length + 1) (.inl (.start l)) []).1 = .inr t := by
  obtain ⟨⟨r, hr, hwalk⟩, -⟩ := loop_within hs rest l [] (by simp)
  rw [hr, hwalk f t h]

/-- For every string of digits, commas and dashes the loop has a result after one pass for
each character at most, and has read nothing behind the terminator. -/
theorem loop_ends (s : List Char) (hs : checkChars s = true) (rest : ℕ → Char) (l : ℤ) :
    ∃ r reads, loop (body (memory s rest)) (s.length + 1) (.inl (.start l)) [] = (.inr r, reads) ∧
      ∀ i ∈ reads, i ≤ s.length := by
  obtain ⟨⟨r, hr, -⟩, hreads⟩ := loop_within hs rest l [] (by simp)
  exact ⟨r, _, Prod.ext hr rfl, hreads⟩

theorem loop_ends_range : ∃ r reads,
    loop (body (memory "3-5,7".toList fun _ => '0')) 6 (.inl (.start 0)) [] = (.inr r, reads) ∧
      ∀ i ∈ reads, i ≤ 5 :=
  loop_ends "3-5,7".toList (by decide) _ 0

/-- A string without a number in front of the dash, and one with two dashes. -/
example : (loop (body (memory "-3,".toList fun _ => '0')) 4 (.inl (.start 2)) []).1 =
      .inr (some [2, 3]) ∧
    (loop (body (memory "1--3".toList fun _ => '0')) 5 (.inl (.start 2)) []).1 = .inr none := by
  decide

end Loop

end PMLib.SetLines
