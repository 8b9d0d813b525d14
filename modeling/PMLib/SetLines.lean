import PMLib.LineMask
import Mathlib.Data.List.TakeWhile

/-! # Line selections of a client

`pm_set_lines` walks over a text such as `30-36,42,100` and sets a mask. A text is the list
of the characters before the terminator. -/
namespace PMLib

/-! ## The parser -/

/-- The local buffers: the sizes of `cad` and `lineas`, and what the uninitialised `l` holds. -/
structure Scratch where
  cad : ℕ
  lineas : ℕ
  l : ℤ

def Scratch.declared (l : ℤ) : Scratch := ⟨4, 128, l⟩

namespace SetLines

def nul : Char := Char.ofNat 0

/-- `*(p+k)`. Beyond the terminator there is nothing to read. -/
def deref (p : List Char) (k : ℕ) : Outcome Char := .ofOption (p ++ [nul])[k]?

def isSeparator (c : Char) : Bool := c == '-' || c == ',' || c == nul

/-- The digits at the start of the text. No caller passes a blank or a sign before them. -/
def atoi (s : List Char) : ℤ := Nat.ofDigitChars 10 (s.takeWhile Char.isDigit) 0

/-- The characters go to `cad` with a newline and the terminator. -/
def readCad (f : Scratch) (cs : List Char) : Outcome ℤ :=
  if cs.length + 2 ≤ f.cad then .done (atoi (cs ++ ['\n'])) else .undefined

/-- The number at `p`, and how many characters it has beyond the first one. -/
def number (f : Scratch) (p : List Char) : Outcome (ℤ × ℕ) := do
  let c0 ← deref p 0
  let c1 ← deref p 1
  if isSeparator c1 then
    let l ← readCad f [c0]
    .done (l, 0)
  else
    let c2 ← deref p 2
    if isSeparator c2 then
      let l ← readCad f [c0, c1]
      .done (l, 1)
    else
      let l ← readCad f [c0, c1, c2]
      .done (l, 2)

def push (f : Scratch) (lineas : List ℤ) (l : ℤ) : Outcome (List ℤ) :=
  if lineas.length < f.lineas then .done (lineas ++ [l]) else .undefined

def pushRange (f : Scratch) (lineas : List ℤ) (l l1 : ℤ) : Outcome (List ℤ) :=
  (List.range (l1 + 1 - l).toNat).foldlM (fun lineas (i : ℕ) => push f lineas (l + i))
    lineas

def checkChars (linesString : List Char) : Bool :=
  linesString.all fun c => c == '-' || c == ',' || "1234567890".toList.contains c

/-- The second pass from `p` on; `none` is the return of an error. -/
def walk (f : Scratch) : (p : List Char) → (sep : Char) → (l : ℤ) → (lineas : List ℤ) →
    Outcome (Option (List ℤ))
  | [], _, _, lineas => .done (some lineas)
  | c :: q, sep, l, lineas =>
    if c ≠ '-' ∧ c ≠ ',' then do
      let (l, n) ← number f (c :: q)
      -- the number that ends the text has no comma to flush it
      let lineas ← if q.drop n = [] then push f lineas l else .done lineas
      walk f (q.drop n) sep l lineas
    else if c = '-' then do
      let d ← deref q 0
      if isSeparator d then .done none
      else
        let (l1, n) ← number f q
        let lineas ← pushRange f lineas l l1
        walk f (q.drop (n + 1)) '-' l lineas
    else if sep = '-' then walk f q ',' l lineas
    else do
      let lineas ← push f lineas l
      walk f q sep l lineas
termination_by p => p.length
decreasing_by all_goals simp only [List.length_drop, List.length_cons]; omega

end SetLines

def pmSetLines (f : Scratch) (linesString : List Char) (lines : LineT) :
    Outcome (ℤ × LineT) :=
  if SetLines.checkChars linesString then do
    match ← SetLines.walk f linesString ',' f.l [] with
    | some lineas => .done (0, lineas.foldl LineT.set LineT.clrAll)
    | none => .done (-1, lines)
  else .done (-1, lines)

def createRequest (pmId : List Byte) (lines : LineT) (aggregate interval : ℤ) :
    CreateRequest where
  deviceName := pmId
  frequency := interval
  aggregate := aggregate ≠ 0
  linesMask := lines.bits

/-! ## The grammar -/

structure Num where
  digits : List (Fin 10)
  pos : 1 ≤ digits.length
  le : digits.length ≤ 3
  deriving DecidableEq, Repr

inductive Item where
  | single (n : Num)
  | range (lo hi : Num)
  deriving DecidableEq, Repr

def digitChar (d : Fin 10) : Char := Nat.digitChar d

namespace Num

def text (n : Num) : List Char := n.digits.map digitChar

def val (n : Num) : ℕ := n.digits.foldl (fun v (d : Fin 10) => 10 * v + d) 0

end Num

namespace Item

def text : Item → List Char
  | .single n => n.text
  | .range lo hi => lo.text ++ '-' :: hi.text

def numbers : Item → List ℕ
  | .single n => [n.val]
  | .range lo hi => List.range' lo.val (hi.val + 1 - lo.val)

def Covers : Item → ℕ → Prop
  | .single n, l => l = n.val
  | .range lo hi, l => lo.val ≤ l ∧ l ≤ hi.val

def render : List Item → List Char
  | [] => []
  | [it] => it.text
  | it :: its => it.text ++ ',' :: render its

theorem mem_numbers {it : Item} {l : ℕ} : l ∈ it.numbers ↔ it.Covers l := by
  cases it with
  | single n => simp [numbers, Covers]
  | range lo hi =>
    simp only [numbers, Covers, List.mem_range'_1]
    omega

end Item

/-! ## Reading a number -/

namespace SetLines

theorem digitChar_isDigit (d : Fin 10) : (digitChar d).isDigit = true := by
  revert d
  decide

theorem digitChar_toNat (d : Fin 10) : (digitChar d).toNat - '0'.toNat = d := by
  revert d
  decide

theorem digitChar_isSeparator (d : Fin 10) : isSeparator (digitChar d) = false := by
  revert d
  decide

theorem digitChar_mem (d : Fin 10) : "1234567890".toList.contains (digitChar d) = true := by
  revert d
  decide

theorem atoi_newline (cs : List Char) : atoi (cs ++ ['\n']) = atoi cs := by
  have htake : (cs ++ ['\n']).takeWhile Char.isDigit = cs.takeWhile Char.isDigit := by
    induction cs with
    | nil => rfl
    | cons c cs ih =>
      rw [List.cons_append, List.takeWhile_cons, List.takeWhile_cons, ih]
  rw [atoi, atoi, htake]

theorem atoi_text (n : Num) : atoi n.text = n.val := by
  have htake : n.text.takeWhile Char.isDigit = n.text := by
    rw [List.takeWhile_eq_self_iff]
    intro c hc
    obtain ⟨d, -, rfl⟩ := List.mem_map.mp hc
    exact digitChar_isDigit d
  rw [atoi, htake, Nat.ofDigitChars_eq_foldl, Num.text, List.foldl_map, Num.val]
  simp only [digitChar_toNat]

theorem readCad_text {f : Scratch} (hcad : 5 ≤ f.cad) (n : Num) :
    readCad f n.text = .done ↑n.val := by
  have hlen : n.text.length + 2 ≤ f.cad := by
    have := n.le
    simp only [Num.text, List.length_map]
    omega
  rw [readCad, if_pos hlen, atoi_newline, atoi_text]

def Delimited (rest : List Char) : Prop := rest = [] ∨ ∃ c q, rest = c :: q ∧ isSeparator c = true

theorem number_chars (f : Scratch) {t rest : List Char} (hne : t ≠ [])
    (ht : ∀ c ∈ t, isSeparator c = false) (hrest : Delimited rest) :
    number f (t ++ rest) = (do
      let l ← readCad f (t.take 3)
      .done (l, (t.take 3).length - 1)) := by
  obtain ⟨c, q, hc, hsep⟩ : ∃ c q, rest ++ [nul] = c :: q ∧ isSeparator c = true := by
    rcases hrest with rfl | ⟨c, q, rfl, hc⟩
    · exact ⟨nul, [], rfl, by decide⟩
    · exact ⟨c, q ++ [nul], rfl, hc⟩
  match t with
  | [a] => simp [number, deref, hc, hsep]
  | [a, b] =>
    have hb := ht b (by simp)
    simp [number, deref, hc, hsep, hb]
  | a :: b :: d :: t =>
    have hb := ht b (by simp)
    have hd := ht d (by simp)
    simp [number, deref, hb, hd]

/-- The look-ahead finds the end of a number of any width. -/
theorem number_text {f : Scratch} (hcad : 5 ≤ f.cad) (n : Num) {rest : List Char}
    (hrest : Delimited rest) :
    number f (n.text ++ rest) = .done (↑n.val, n.text.length - 1) := by
  have hlen : n.text.length = n.digits.length := List.length_map _
  have hne : n.text ≠ [] := List.ne_nil_of_length_pos (hlen ▸ n.pos)
  have hsep : ∀ c ∈ n.text, isSeparator c = false := by
    intro c hc
    obtain ⟨d, -, rfl⟩ := List.mem_map.mp hc
    exact digitChar_isSeparator d
  rw [number_chars f hne hsep hrest, List.take_of_length_le (hlen ▸ n.le), readCad_text hcad n,
    Outcome.done_bind]

theorem text_eq_cons (n : Num) :
    ∃ d q, n.text = digitChar d :: q ∧ q.length = n.text.length - 1 := by
  obtain ⟨digits, hpos, hle⟩ := n
  match digits with
  | d :: ds => exact ⟨d, ds.map digitChar, rfl, by simp [Num.text]⟩

theorem push_eq_if (f : Scratch) (lineas : List ℤ) (v : ℤ) : push f lineas v =
    if lineas.length + 1 ≤ f.lineas then .done (lineas ++ [v]) else .undefined :=
  if_congr (show lineas.length < f.lineas ↔ lineas.length + 1 ≤ f.lineas from Iff.rfl) rfl rfl

theorem pushRange_eq_if {f : Scratch} {lineas : List ℤ} (hroom : lineas.length ≤ f.lineas)
    (lo hi : ℤ) : pushRange f lineas lo hi =
      if lineas.length + (hi + 1 - lo).toNat ≤ f.lineas then
        .done (lineas ++ (List.range (hi + 1 - lo).toNat).map fun i : ℕ => lo + i)
      else .undefined := by
  rw [pushRange]
  generalize (hi + 1 - lo).toNat = k
  induction k with
  | zero => simp [hroom]
  | succ k ih =>
    rw [List.range_succ, List.foldlM_append, ih]
    by_cases hk : lineas.length + k ≤ f.lineas
    · rw [if_pos hk, Outcome.done_bind, List.foldlM_cons, push_eq_if]
      simp only [List.length_append, List.length_map, List.length_range, Nat.add_assoc]
      split_ifs with hsucc
      · simp
      · rfl
    · rw [if_neg hk, if_neg (by omega)]
      rfl

theorem pushRange_eq {f : Scratch} (lineas : List ℤ) (lo hi : ℕ)
    (hlen : lineas.length + (hi + 1 - lo) ≤ f.lineas) :
    pushRange f lineas lo hi =
      .done (lineas ++ (List.range' lo (hi + 1 - lo)).map Nat.cast) := by
  have hk : ((hi : ℤ) + 1 - lo).toNat = hi + 1 - lo := by omega
  have hnumbers : ((List.range (hi + 1 - lo)).map fun i : ℕ => (lo : ℤ) + i) =
      (List.range' lo (hi + 1 - lo)).map Nat.cast := by
    rw [List.range'_eq_map_range, List.map_map]
    simp [Function.comp_def]
  rw [pushRange_eq_if (by omega), hk, if_pos hlen, hnumbers]

/-! ## Walking over a selection -/

theorem walk_digit (f : Scratch) {c : Char} {q : List Char} (hc : isSeparator c = false)
    (sep : Char) (l : ℤ) (lineas : List ℤ) : walk f (c :: q) sep l lineas = (do
      let (l, n) ← number f (c :: q)
      let lineas ← if q.drop n = [] then push f lineas l else .done lineas
      walk f (q.drop n) sep l lineas) := by
  have hdash : c ≠ '-' ∧ c ≠ ',' := by
    simp only [isSeparator, Bool.or_eq_false_iff, beq_eq_false_iff_ne] at hc
    exact hc.1
  rw [walk, if_pos hdash]

theorem walk_range (f : Scratch) {d : Char} {q : List Char} (hd : isSeparator d = false)
    (sep : Char) (l : ℤ) (lineas : List ℤ) : walk f ('-' :: d :: q) sep l lineas = (do
      let (l1, n) ← number f (d :: q)
      let lineas ← pushRange f lineas l l1
      walk f ((d :: q).drop (n + 1)) '-' l lineas) := by
  have hderef : deref (d :: q) 0 = .done d := rfl
  rw [walk, if_neg (by decide), if_pos rfl, hderef, Outcome.done_bind, hd,
    if_neg Bool.false_ne_true]

/-- A number is remembered; only the end of the text flushes it at once. -/
theorem walk_number {f : Scratch} (hcad : 5 ≤ f.cad) (n : Num) {rest : List Char}
    (hrest : Delimited rest) (sep : Char) (l : ℤ) (lineas : List ℤ) :
    walk f (n.text ++ rest) sep l lineas = (do
      let lineas ← if rest = [] then push f lineas n.val else .done lineas
      walk f rest sep n.val lineas) := by
  have hnum := number_text hcad n hrest
  obtain ⟨d, q, htext, hq⟩ := text_eq_cons n
  have hdrop : (q ++ rest).drop (n.text.length - 1) = rest := by rw [← hq, List.drop_left]
  rw [htext, List.cons_append] at hnum
  rw [htext, List.cons_append, walk_digit f (digitChar_isSeparator d), hnum, ← htext]
  simp only [Outcome.done_bind, hdrop]

theorem walk_dash {f : Scratch} (hcad : 5 ≤ f.cad) (n : Num) {rest : List Char}
    (hrest : Delimited rest) (sep : Char) (l : ℤ) (lineas : List ℤ) :
    walk f ('-' :: (n.text ++ rest)) sep l lineas = (do
      let lineas ← pushRange f lineas l n.val
      walk f rest '-' l lineas) := by
  have hnum := number_text hcad n hrest
  obtain ⟨d, q, htext, hq⟩ := text_eq_cons n
  have hlen : n.text.length - 1 + 1 = n.text.length := by rw [htext]; simp
  have hdrop : (digitChar d :: (q ++ rest)).drop n.text.length = rest := by
    rw [← List.cons_append, ← htext, List.drop_left]
  rw [htext, List.cons_append] at hnum
  rw [htext, List.cons_append, walk_range f (digitChar_isSeparator d), hnum, ← htext]
  simp only [Outcome.done_bind, hlen, hdrop]

theorem walk_comma (f : Scratch) (q : List Char) (sep : Char) (l : ℤ) (lineas : List ℤ) :
    walk f (',' :: q) sep l lineas =
      (if sep = '-' then walk f q ',' l lineas
      else do
        let lineas ← push f lineas l
        walk f q sep l lineas) := by
  rw [walk, if_neg (by decide), if_neg (by decide)]

theorem push_eq {f : Scratch} {lineas : List ℤ} (h : lineas.length + 1 ≤ f.lineas) (l : ℤ) :
    push f lineas l = .done (lineas ++ [l]) := if_pos h

theorem walk_last {f : Scratch} (hcad : 5 ≤ f.cad) (it : Item) (l : ℤ) {lineas : List ℤ}
    (hlen : lineas.length + it.numbers.length ≤ f.lineas) :
    walk f it.text ',' l lineas = .done (some (lineas ++ it.numbers.map Nat.cast)) := by
  cases it with
  | single n =>
    have h := walk_number hcad n (.inl rfl) ',' l lineas
    have hend : walk f [] ',' n.val (lineas ++ [(n.val : ℤ)]) =
        .done (some (lineas ++ [(n.val : ℤ)])) := by rw [walk]
    rw [List.append_nil, if_pos rfl, push_eq hlen] at h
    exact h.trans hend
  | range lo hi =>
    have hdash : Delimited ('-' :: hi.text) := .inr ⟨'-', hi.text, rfl, by decide⟩
    have h := walk_dash hcad hi (.inl rfl) ',' lo.val lineas
    rw [List.append_nil, pushRange_eq lineas _ _ (by simpa [Item.numbers] using hlen),
      Outcome.done_bind, walk] at h
    rw [Item.text, walk_number hcad lo hdash, if_neg (List.cons_ne_nil _ _)]
    exact h

theorem walk_item {f : Scratch} (hcad : 5 ≤ f.cad) (it : Item) (r : List Char) (l : ℤ)
    {lineas : List ℤ} (hlen : lineas.length + it.numbers.length ≤ f.lineas) :
    ∃ l', walk f (it.text ++ ',' :: r) ',' l lineas =
      walk f r ',' l' (lineas ++ it.numbers.map Nat.cast) := by
  have hcomma : Delimited (',' :: r) := .inr ⟨',', r, rfl, by decide⟩
  cases it with
  | single n =>
    refine ⟨n.val, ?_⟩
    have hflush : walk f (',' :: r) ',' n.val lineas =
        walk f r ',' n.val (lineas ++ [(n.val : ℤ)]) := by
      rw [walk_comma, if_neg (by decide), push_eq hlen, Outcome.done_bind]
    rw [Item.text, walk_number hcad n hcomma, if_neg (List.cons_ne_nil _ _)]
    exact hflush
  | range lo hi =>
    have hdash : Delimited ('-' :: (hi.text ++ ',' :: r)) := .inr ⟨'-', _, rfl, by decide⟩
    refine ⟨lo.val, ?_⟩
    have hrange : walk f ('-' :: (hi.text ++ ',' :: r)) ',' lo.val lineas =
        walk f r ',' lo.val (lineas ++ (Item.range lo hi).numbers.map Nat.cast) := by
      rw [walk_dash hcad hi hcomma,
        pushRange_eq lineas _ _ (by simpa [Item.numbers] using hlen), Outcome.done_bind,
        walk_comma, if_pos rfl, Item.numbers]
    rw [Item.text, List.append_assoc, List.cons_append, walk_number hcad lo hdash,
      if_neg (List.cons_ne_nil _ _)]
    exact hrange

theorem walk_render {f : Scratch} (hcad : 5 ≤ f.cad) (items : List Item) (l : ℤ)
    {lineas : List ℤ}
    (hlen : lineas.length + (items.flatMap Item.numbers).length ≤ f.lineas) :
    walk f (Item.render items) ',' l lineas =
      .done (some (lineas ++ (items.flatMap Item.numbers).map Nat.cast)) := by
  induction items generalizing l lineas with
  | nil => simp [Item.render, walk]
  | cons it its ih =>
    rw [List.flatMap_cons, List.length_append] at hlen
    have hit : lineas.length + it.numbers.length ≤ f.lineas := by omega
    cases its with
    | nil =>
      have h := walk_last hcad it l hit
      simpa [Item.render] using h
    | cons it' its =>
      obtain ⟨l', h⟩ := walk_item hcad it (Item.render (it' :: its)) l hit
      have hnext : (lineas ++ it.numbers.map (Nat.cast (R := ℤ))).length +
          ((it' :: its).flatMap Item.numbers).length ≤ f.lineas := by
        rw [List.length_append, List.length_map]
        omega
      have hrender : Item.render (it :: it' :: its) =
          it.text ++ ',' :: Item.render (it' :: its) := rfl
      have hnumbers : (it :: it' :: its).flatMap Item.numbers =
          it.numbers ++ (it' :: its).flatMap Item.numbers := List.flatMap_cons
      rw [hrender, h, ih l' hnext, hnumbers, List.map_append, List.append_assoc]

theorem checkChars_text (it : Item) : checkChars it.text = true := by
  have hnum : ∀ n : Num, checkChars n.text = true := by
    intro n
    apply List.all_eq_true.mpr
    intro c hc
    obtain ⟨d, -, rfl⟩ := List.mem_map.mp hc
    rw [digitChar_mem, Bool.or_true]
  cases it with
  | single n => exact hnum n
  | range lo hi =>
    have hlo := hnum lo
    have hhi := hnum hi
    unfold checkChars at hlo hhi ⊢
    rw [Item.text, List.all_append, List.all_cons, hlo, hhi]
    decide

theorem checkChars_render (items : List Item) : checkChars (Item.render items) = true := by
  induction items with
  | nil => rfl
  | cons it its ih =>
    have hit := checkChars_text it
    cases its with
    | nil => exact hit
    | cons it' its =>
      have hrender : Item.render (it :: it' :: its) =
          it.text ++ ',' :: Item.render (it' :: its) := rfl
      unfold checkChars at hit ih ⊢
      rw [hrender, List.all_append, List.all_cons, hit, ih]
      decide

end SetLines

/-! ## The round trip -/

theorem pmSetLines_render {f : Scratch} (hcad : 5 ≤ f.cad) (items : List Item)
    (hlen : (items.flatMap Item.numbers).length ≤ f.lineas) (lines : LineT) :
    pmSetLines f (Item.render items) lines = .done (0,
      (items.flatMap Item.numbers).foldl (fun m (n : ℕ) => m.set n) LineT.clrAll) := by
  have hroom : ([] : List ℤ).length + (items.flatMap Item.numbers).length ≤ f.lineas := by
    simpa using hlen
  have hwalk := SetLines.walk_render hcad items f.l hroom
  rw [pmSetLines, if_pos (SetLines.checkChars_render items), hwalk, List.nil_append]
  simp only [Outcome.done_bind, List.foldl_map]

theorem Num.val_lt (n : Num) : n.val < 1000 := by
  obtain ⟨digits, hpos, hle⟩ := n
  match digits with
  | [a] => simp only [val, List.foldl_cons, List.foldl_nil]; omega
  | [a, b] => simp only [val, List.foldl_cons, List.foldl_nil]; omega
  | [a, b, c] => simp only [val, List.foldl_cons, List.foldl_nil]; omega

theorem Item.lt_of_covers {it : Item} {l : ℕ} (h : it.Covers l) : l < 1000 := by
  cases it with
  | single n => exact h ▸ n.val_lt
  | range lo hi => exact lt_of_le_of_lt h.2 hi.val_lt

/-- A selection that enumerates at most 128 numbers arrives at the server as the ascending
list of the lines that it covers and the device has. -/
theorem setLines_createRequest (cad : ℕ) (l : ℤ) (hcad : 5 ≤ cad) (items : List Item)
    (hcount : (items.flatMap Item.numbers).length ≤ 128) (lines : LineT) :
    ∃ m : LineT, pmSetLines ⟨cad, 128, l⟩ (Item.render items) lines = .done (0, m) ∧
      ∀ (pmId : List Byte) (aggregate interval : ℤ) (nLines : ℕ), ∃ sel : List ℕ,
        Counter.setLines nLines (createRequest pmId m aggregate interval).linesMask = .done sel ∧
        sel.Pairwise (· < ·) ∧
        ∀ x : ℕ, x ∈ sel ↔ x < min nLines 128 ∧ ∃ it ∈ items, it.Covers x := by
  refine ⟨_, pmSetLines_render hcad items hcount lines, fun pmId aggregate interval nLines =>
    ⟨_, Counter.setLines_bits nLines _, LineT.lines_sorted _ _, fun x => ?_⟩⟩
  have hsmall : ∀ n ∈ items.flatMap Item.numbers, n < 2 ^ 64 := by
    intro n hn
    obtain ⟨it, -, hit⟩ := List.mem_flatMap.mp hn
    have := Item.lt_of_covers (Item.mem_numbers.mp hit)
    omega
  rw [LineT.mem_lines]
  apply and_congr_right
  intro hx
  rw [LineT.isSet_foldl_set _ hsmall _ (by omega), LineT.isSet_clrAll, Bool.false_or,
    decide_eq_true_eq, List.mem_flatMap]
  simp only [Item.mem_numbers]

theorem setLines_createRequest_ranges :
    let num (a b : Fin 10) : Num := ⟨[a, b], by simp, by simp⟩
    let items := [Item.range (num 3 0) (num 3 6), .single (num 4 2)]
    5 ≤ 5 ∧ (items.flatMap Item.numbers).length ≤ 128 ∧
    ∃ m : LineT, pmSetLines ⟨5, 128, 0⟩ (Item.render items) LineT.setAll = .done (0, m) ∧
      ∀ (pmId : List Byte) (aggregate interval : ℤ) (nLines : ℕ), ∃ sel : List ℕ,
        Counter.setLines nLines (createRequest pmId m aggregate interval).linesMask = .done sel ∧
        sel.Pairwise (· < ·) ∧
        ∀ x : ℕ, x ∈ sel ↔ x < min nLines 128 ∧ ∃ it ∈ items, it.Covers x :=
  ⟨by decide, by decide, setLines_createRequest 5 0 (by decide) _ (by decide) LineT.setAll⟩

end PMLib
