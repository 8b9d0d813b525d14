import PMLib.SetLines

/-! # Any text as a selection

A text falls into pieces between commas, and a piece into parts between dashes. What the
parser does with it is said by these: what it puts into `lineas`, where it gives up, and
whether its buffers have room. -/
namespace PMLib

namespace SetLines

/-! ## Pieces of a text -/

/-- A dash before `q` has no number behind it. -/
def noNumber : List Char → Bool
  | [] => true
  | d :: _ => isSeparator d

/-- The pieces between commas, each with the parts between its dashes, up to the first dash
without a number. -/
def pieces : List Char → List (List (List Char))
  | [] => [[[]]]
  | c :: q =>
    if c = ',' then [[]] :: pieces q
    else if c = '-' then
      if noNumber q then [[[]]] else (pieces q).modifyHead ([] :: ·)
    else (pieces q).modifyHead (List.modifyHead (c :: ·))

def unread : List Char → List Char
  | [] => []
  | c :: q => if c = '-' ∧ noNumber q = true then c :: q else unread q

def tailText (ts : List (List Char)) : List Char := ts.flatMap ('-' :: ·)

def pieceText : List (List Char) → List Char
  | [] => []
  | h :: ts => h ++ tailText ts

def piecesText : List (List (List Char)) → List Char
  | [] => []
  | [p] => pieceText p
  | p :: ps => pieceText p ++ ',' :: piecesText ps

/-- A piece has a first part, perhaps empty, and numbers behind its dashes. -/
structure Formed (p : List (List Char)) : Prop where
  nonempty : p ≠ []
  tail : ∀ t ∈ p.tail, t ≠ []
  parts : ∀ t ∈ p, ∀ c ∈ t, isSeparator c = false

theorem exists_pieces (s : List Char) : ∃ h ts ps, pieces s = (h :: ts) :: ps := by
  induction s with
  | nil => exact ⟨[], [], [], rfl⟩
  | cons c q ih =>
    obtain ⟨h, ts, ps, hq⟩ := ih
    rw [pieces, hq]
    split_ifs
    · exact ⟨_, _, _, rfl⟩
    · exact ⟨_, _, _, rfl⟩
    · exact ⟨_, _, _, rfl⟩
    · exact ⟨_, _, _, rfl⟩

theorem pieces_ne_nil (s : List Char) : pieces s ≠ [] := by
  obtain ⟨h, ts, ps, hs⟩ := exists_pieces s
  rw [hs]
  exact List.cons_ne_nil _ _

theorem piecesText_cons (p : List (List Char)) {ps : List (List (List Char))} (h : ps ≠ []) :
    piecesText (p :: ps) = pieceText p ++ ',' :: piecesText ps := by
  cases ps with
  | nil => exact absurd rfl h
  | cons p' ps => rfl

theorem piecesText_modifyHead {f : List (List Char) → List (List Char)} {c : Char}
    (hf : ∀ p : List (List Char), p ≠ [] → pieceText (f p) = c :: pieceText p)
    {p : List (List Char)} (hp : p ≠ []) (ps : List (List (List Char))) :
    piecesText ((p :: ps).modifyHead f) = c :: piecesText (p :: ps) := by
  cases ps with
  | nil => exact hf p hp
  | cons p' ps =>
    rw [List.modifyHead_cons, piecesText_cons _ (List.cons_ne_nil _ _), hf p hp,
      piecesText_cons _ (List.cons_ne_nil _ _)]
    rfl

theorem pieceText_digit (c : Char) (p : List (List Char)) (hp : p ≠ []) :
    pieceText (p.modifyHead (c :: ·)) = c :: pieceText p := by
  cases p with
  | nil => exact absurd rfl hp
  | cons h ts => rfl

theorem pieceText_dash (p : List (List Char)) (hp : p ≠ []) :
    pieceText ([] :: p) = '-' :: pieceText p := by
  cases p with
  | nil => exact absurd rfl hp
  | cons h ts => simp [pieceText, tailText]

theorem piecesText_pieces (s : List Char) : piecesText (pieces s) ++ unread s = s := by
  induction s with
  | nil => rfl
  | cons c q ih =>
    obtain ⟨h, ts, ps, hq⟩ := exists_pieces q
    have hne : h :: ts ≠ [] := List.cons_ne_nil _ _
    by_cases hcomma : c = ','
    · rw [pieces, if_pos hcomma, unread, if_neg (by rw [hcomma]; simp),
        piecesText_cons _ (pieces_ne_nil q), List.append_assoc, List.cons_append, ih, hcomma]
      rfl
    by_cases hdash : c = '-'
    · rw [pieces, if_neg hcomma, if_pos hdash, unread]
      by_cases hnone : noNumber q = true
      · rw [if_pos hnone, if_pos ⟨hdash, hnone⟩]
        rfl
      · rw [if_neg hnone, if_neg fun h => hnone h.2, hq,
          piecesText_modifyHead pieceText_dash hne, ← hq, List.cons_append, ih, hdash]
    · rw [pieces, if_neg hcomma, if_neg hdash, unread, if_neg fun h => hdash h.1, hq,
        piecesText_modifyHead (pieceText_digit c) hne, ← hq, List.cons_append, ih]

theorem formed_pieces {s : List Char} (hs : ∀ c ∈ s, c ≠ nul) :
    (∀ p ∈ pieces s, Formed p) ∧
      (noNumber s = false → ∃ c h ts ps, pieces s = ((c :: h) :: ts) :: ps) := by
  have hempty : Formed [[]] := ⟨by simp, by simp, by simp⟩
  induction s with
  | nil =>
    refine ⟨fun p hp => ?_, nofun⟩
    obtain rfl := List.mem_singleton.mp hp
    exact hempty
  | cons c q ih =>
    obtain ⟨hformed, hfirst⟩ := ih fun d hd => hs d (by simp [hd])
    by_cases hcomma : c = ','
    · rw [pieces, if_pos hcomma]
      have hsep : noNumber (c :: q) = true := by rw [hcomma]; rfl
      exact ⟨List.forall_mem_cons.mpr ⟨hempty, hformed⟩, fun h => absurd h (by simp [hsep])⟩
    by_cases hdash : c = '-'
    · rw [pieces, if_neg hcomma, if_pos hdash]
      have hsep : noNumber (c :: q) = true := by rw [hdash]; rfl
      refine ⟨?_, fun h => absurd h (by simp [hsep])⟩
      by_cases hnone : noNumber q = true
      · rw [if_pos hnone]
        exact List.forall_mem_singleton.mpr hempty
      · obtain ⟨d, h, ts, ps, hq⟩ := hfirst (by simpa using hnone)
        rw [if_neg hnone, hq, List.modifyHead_cons, List.forall_mem_cons]
        rw [hq, List.forall_mem_cons] at hformed
        obtain ⟨⟨_, htail, hparts⟩, hps⟩ := hformed
        refine ⟨⟨List.cons_ne_nil _ _, ?_, ?_⟩, hps⟩
        · exact List.forall_mem_cons.mpr ⟨List.cons_ne_nil _ _, htail⟩
        · exact List.forall_mem_cons.mpr ⟨nofun, hparts⟩
    · obtain ⟨h, ts, ps, hq⟩ := exists_pieces q
      have hsep : isSeparator c = false := by
        simp [isSeparator, hcomma, hdash, hs c (by simp)]
      rw [pieces, if_neg hcomma, if_neg hdash, hq, List.modifyHead_cons, List.modifyHead_cons]
      rw [hq, List.forall_mem_cons] at hformed
      obtain ⟨⟨_, htail, hparts⟩, hps⟩ := hformed
      refine ⟨List.forall_mem_cons.mpr ⟨⟨List.cons_ne_nil _ _, htail, ?_⟩, hps⟩,
        fun _ => ⟨c, h, ts, ps, rfl⟩⟩
      rw [List.forall_mem_cons] at hparts ⊢
      exact ⟨List.forall_mem_cons.mpr ⟨hsep, hparts.1⟩, hparts.2⟩

theorem unread_eq (s : List Char) : unread s = [] ∨
    ∃ q, unread s = '-' :: q ∧ noNumber q = true := by
  induction s with
  | nil => exact .inl rfl
  | cons c q ih =>
    rw [unread]
    split_ifs with h
    · obtain ⟨rfl, hq⟩ := h
      exact .inr ⟨q, rfl, hq⟩
    · exact ih

/-! ## What the walk does with the parts -/

def start (l : ℤ) (h : List Char) : ℤ := if h = [] then l else atoi h

def span (l : ℤ) (t : List Char) : List ℤ :=
  (List.range (atoi t + 1 - l).toNat).map fun i : ℕ => l + i

/-- What goes into `lineas` for the pieces of a text: a piece without dashes is one number,
when a comma or the end of the text flushes it. -/
def entries (ended : Bool) : ℤ → List (List (List Char)) → List ℤ
  | _, [] => []
  | _, [] :: _ => []
  | l, (h :: ts) :: ps =>
    (if ts ≠ [] then ts.flatMap (span (start l h))
      else if ps ≠ [] ∨ ended ∧ h ≠ [] then [start l h] else []) ++
    entries ended (start l h) ps

/-- With `cad` as declared, a number of three characters has no room. -/
theorem number_declared (l : ℤ) {t rest : List Char} (hne : t ≠ [])
    (ht : ∀ c ∈ t, isSeparator c = false) (hrest : Delimited rest) :
    number (.declared l) (t ++ rest) =
      if t.length ≤ 2 then .done (atoi t, t.length - 1) else .undefined := by
  rw [number_chars _ hne ht hrest]
  split_ifs with hlen
  · rw [List.take_of_length_le (by omega), readCad, if_pos (by simp [Scratch.declared]; omega),
      Outcome.done_bind, atoi_newline]
  · have htake : (t.take 3).length = 3 := by
      rw [List.length_take]
      omega
    rw [readCad, if_neg (by rw [htake]; simp [Scratch.declared])]
    rfl

theorem push_declared (l v : ℤ) (lineas : List ℤ) : push (.declared l) lineas v =
    if lineas.length + 1 ≤ 128 then .done (lineas ++ [v]) else .undefined := push_eq_if _ _ _

theorem pushRange_declared (l : ℤ) {lineas : List ℤ} (hroom : lineas.length ≤ 128) (lo hi : ℤ) :
    pushRange (.declared l) lineas lo hi =
      if lineas.length + (hi + 1 - lo).toNat ≤ 128 then
        .done (lineas ++ (List.range (hi + 1 - lo).toNat).map fun i : ℕ => lo + i)
      else .undefined :=
  pushRange_eq_if (show lineas.length ≤ (Scratch.declared l).lineas from hroom) lo hi

theorem walk_first (l₀ : ℤ) {h rest : List Char} (hh : ∀ c ∈ h, isSeparator c = false)
    (hrest : Delimited rest) (hne : rest ≠ [] ∨ h = []) (sep : Char) (l : ℤ) (lineas : List ℤ) :
    walk (.declared l₀) (h ++ rest) sep l lineas =
      if h.length ≤ 2 then walk (.declared l₀) rest sep (start l h) lineas else .undefined := by
  cases h with
  | nil => simp [start]
  | cons c h =>
    have hrest' : rest ≠ [] := hne.resolve_right (List.cons_ne_nil _ _)
    have hnum := number_declared l₀ (List.cons_ne_nil c h) hh hrest
    rw [List.cons_append] at hnum
    rw [List.cons_append, walk_digit _ (hh c (by simp)), hnum]
    split_ifs with hlen
    · have hdrop : (h ++ rest).drop ((c :: h).length - 1) = rest := by simp
      simp only [Outcome.done_bind, hdrop, if_neg hrest', start, if_neg (List.cons_ne_nil c h)]
    · rfl

theorem walk_end (l₀ : ℤ) {h : List Char} (hh : ∀ c ∈ h, isSeparator c = false) (hne : h ≠ [])
    (sep : Char) (l : ℤ) (lineas : List ℤ) :
    walk (.declared l₀) h sep l lineas =
      if h.length ≤ 2 ∧ lineas.length + 1 ≤ 128 then .done (some (lineas ++ [atoi h]))
      else .undefined := by
  obtain ⟨c, q, rfl⟩ := List.exists_cons_of_ne_nil hne
  have hnum := number_declared l₀ hne hh (.inl rfl)
  rw [List.append_nil] at hnum
  rw [walk_digit _ (hh c (by simp)), hnum]
  by_cases hlen : (c :: q).length ≤ 2
  · have hdrop : q.drop ((c :: q).length - 1) = [] := by simp
    rw [if_pos hlen]
    simp only [Outcome.done_bind, hdrop, if_true, push_declared]
    by_cases hroom : lineas.length + 1 ≤ 128
    · rw [if_pos hroom, if_pos ⟨hlen, hroom⟩, Outcome.done_bind, walk]
    · rw [if_neg hroom, if_neg fun h => hroom h.2]
      rfl
  · rw [if_neg hlen, if_neg fun h => hlen h.1]
    rfl

theorem walk_part (l₀ : ℤ) {t rest : List Char} (hne : t ≠ [])
    (ht : ∀ c ∈ t, isSeparator c = false) (hrest : Delimited rest) (sep : Char) (l : ℤ)
    {lineas : List ℤ} (hroom : lineas.length ≤ 128) :
    walk (.declared l₀) ('-' :: (t ++ rest)) sep l lineas =
      if t.length ≤ 2 ∧ lineas.length + (span l t).length ≤ 128 then
        walk (.declared l₀) rest '-' l (lineas ++ span l t)
      else .undefined := by
  have hnum := number_declared l₀ hne ht hrest
  obtain ⟨c, q, rfl⟩ := List.exists_cons_of_ne_nil hne
  have hspan : (span l (c :: q)).length = (atoi (c :: q) + 1 - l).toNat := by simp [span]
  rw [List.cons_append] at hnum
  rw [List.cons_append, walk_range _ (ht c (by simp)), hnum]
  by_cases hlen : (c :: q).length ≤ 2
  · have hdrop : (c :: (q ++ rest)).drop ((c :: q).length - 1 + 1) = rest := by simp
    rw [if_pos hlen]
    simp only [Outcome.done_bind, hdrop, pushRange_declared l₀ hroom, hspan]
    by_cases hfit : lineas.length + (atoi (c :: q) + 1 - l).toNat ≤ 128
    · rw [if_pos hfit, if_pos ⟨hlen, hfit⟩]
      rfl
    · rw [if_neg hfit, if_neg fun h => hfit h.2]
      rfl
  · rw [if_neg hlen, if_neg fun h => hlen h.1]
    rfl

theorem walk_tail (l₀ : ℤ) {ts : List (List Char)} {rest : List Char} (hne : ∀ t ∈ ts, t ≠ [])
    (hts : ∀ t ∈ ts, ∀ c ∈ t, isSeparator c = false) (hrest : Delimited rest) (sep : Char) (l : ℤ)
    {lineas : List ℤ} (hroom : lineas.length ≤ 128) :
    walk (.declared l₀) (tailText ts ++ rest) sep l lineas =
      if (∀ t ∈ ts, t.length ≤ 2) ∧ lineas.length + (ts.flatMap (span l)).length ≤ 128 then
        walk (.declared l₀) rest (if ts = [] then sep else '-') l (lineas ++ ts.flatMap (span l))
      else .undefined := by
  induction ts generalizing sep lineas with
  | nil => simp [tailText, hroom]
  | cons t ts ih =>
    have hdelim : Delimited (tailText ts ++ rest) := by
      cases ts with
      | nil => exact hrest
      | cons t' ts => exact .inr ⟨'-', t' ++ (tailText ts ++ rest), by simp [tailText], by decide⟩
    have htext : tailText (t :: ts) ++ rest = '-' :: (t ++ (tailText ts ++ rest)) := by
      simp [tailText]
    rw [htext, walk_part l₀ (hne t (by simp)) (hts t (by simp)) hdelim sep l hroom]
    simp only [List.forall_mem_cons, List.flatMap_cons, List.length_append,
      if_neg (List.cons_ne_nil t ts)]
    by_cases hfit : t.length ≤ 2 ∧ lineas.length + (span l t).length ≤ 128
    · have hlen : (lineas ++ span l t).length ≤ 128 := by
        rw [List.length_append]
        exact hfit.2
      rw [if_pos hfit, ih (fun t' ht' => hne t' (by simp [ht']))
        (fun t' ht' => hts t' (by simp [ht'])) '-' hlen, List.length_append, List.append_assoc]
      simp only [hfit.1, true_and, ite_self, Nat.add_assoc]
    · rw [if_neg hfit, if_neg]
      rintro ⟨⟨ht, _⟩, hlen⟩
      exact hfit ⟨ht, by omega⟩

/-- The parts have at most two characters, and what is put in has room. -/
def Fits (lineas : List ℤ) (ps : List (List (List Char))) (put : List ℤ) : Prop :=
  (∀ p ∈ ps, ∀ t ∈ p, t.length ≤ 2) ∧ lineas.length + put.length ≤ 128

instance (lineas : List ℤ) (ps : List (List (List Char))) (put : List ℤ) :
    Decidable (Fits lineas ps put) := inferInstanceAs (Decidable (_ ∧ _))

theorem walk_piece (l₀ : ℤ) {h : List Char} {ts : List (List Char)} (hp : Formed (h :: ts))
    (r : List Char) (l : ℤ) {lineas : List ℤ} (hroom : lineas.length ≤ 128) :
    walk (.declared l₀) (pieceText (h :: ts) ++ ',' :: r) ',' l lineas =
      if Fits lineas [h :: ts]
        (if ts ≠ [] then ts.flatMap (span (start l h)) else [start l h]) then
        walk (.declared l₀) r ',' (start l h) (lineas ++
          if ts ≠ [] then ts.flatMap (span (start l h)) else [start l h])
      else .undefined := by
  obtain ⟨_, htail, hparts⟩ := hp
  rw [List.forall_mem_cons] at hparts
  rw [List.tail_cons] at htail
  have hcomma : Delimited (',' :: r) := .inr ⟨',', r, rfl, by decide⟩
  have hdelim : Delimited (tailText ts ++ ',' :: r) := by
    cases ts with
    | nil => exact hcomma
    | cons t ts => exact .inr ⟨'-', t ++ (tailText ts ++ ',' :: r), by simp [tailText], by decide⟩
  have hne : tailText ts ++ ',' :: r ≠ [] := by simp
  rw [pieceText, List.append_assoc, walk_first l₀ hparts.1 hdelim (.inl hne)]
  unfold Fits
  simp only [List.forall_mem_singleton, List.forall_mem_cons]
  by_cases hlen : h.length ≤ 2
  · rw [if_pos hlen, walk_tail l₀ htail hparts.2 hcomma _ _ hroom]
    by_cases hts : ts = []
    · subst hts
      simp only [List.flatMap_nil, List.append_nil, ne_eq, not_true_eq_false, if_false, if_true]
      rw [if_pos ⟨by simp, by simpa using hroom⟩, walk_comma, if_neg (by decide), push_declared]
      by_cases hfit : lineas.length + 1 ≤ 128
      · rw [if_pos hfit, if_pos ⟨⟨hlen, by simp⟩, hfit⟩, Outcome.done_bind]
      · rw [if_neg hfit, if_neg fun h => hfit h.2]
        rfl
    · simp only [hts, hlen, ne_eq, not_false_eq_true, if_true, if_false, true_and]
      rw [walk_comma, if_pos rfl]
  · rw [if_neg hlen, if_neg fun h => hlen h.1.1]

theorem walk_stop (f : Scratch) {u : List Char}
    (hu : u = [] ∨ ∃ q, u = '-' :: q ∧ noNumber q = true) (sep : Char) (l : ℤ) (lineas : List ℤ) :
    walk f u sep l lineas = .done (if u = [] then some lineas else none) := by
  rcases hu with rfl | ⟨q, rfl, hq⟩
  · rw [walk, if_pos rfl]
  · rw [walk, if_neg (by decide), if_pos rfl, if_neg (List.cons_ne_nil _ _)]
    cases q with
    | nil => rfl
    | cons d q =>
      have hd : isSeparator d = true := hq
      have hderef : deref (d :: q) 0 = .done d := rfl
      rw [hderef, Outcome.done_bind, if_pos hd]

theorem walk_lastPiece (l₀ : ℤ) {h : List Char} {ts : List (List Char)} (hp : Formed (h :: ts))
    {u : List Char} (hu : u = [] ∨ ∃ q, u = '-' :: q ∧ noNumber q = true) (l : ℤ)
    {lineas : List ℤ} (hroom : lineas.length ≤ 128) :
    walk (.declared l₀) (pieceText (h :: ts) ++ u) ',' l lineas =
      if Fits lineas [h :: ts] (if ts ≠ [] then ts.flatMap (span (start l h))
        else if u = [] ∧ h ≠ [] then [start l h] else []) then
        .done (if u = [] then some (lineas ++ if ts ≠ [] then ts.flatMap (span (start l h))
          else if h ≠ [] then [start l h] else []) else none)
      else .undefined := by
  obtain ⟨_, htail, hparts⟩ := hp
  rw [List.forall_mem_cons] at hparts
  rw [List.tail_cons] at htail
  unfold Fits
  simp only [List.forall_mem_singleton, List.forall_mem_cons]
  by_cases hend : ts = [] ∧ u = [] ∧ h ≠ []
  · obtain ⟨rfl, rfl, hne⟩ := hend
    have htext : pieceText [h] ++ [] = h := by simp [pieceText, tailText]
    rw [htext, walk_end l₀ hparts.1 hne]
    simp [hne, start]
  · have hdelim : Delimited u := by
      rcases hu with rfl | ⟨q, rfl, _⟩
      · exact .inl rfl
      · exact .inr ⟨'-', q, rfl, by decide⟩
    have hdelim' : Delimited (tailText ts ++ u) := by
      cases ts with
      | nil => exact hdelim
      | cons t ts => exact .inr ⟨'-', t ++ (tailText ts ++ u), by simp [tailText], by decide⟩
    have hne : tailText ts ++ u ≠ [] ∨ h = [] := by
      by_cases hh : h = []
      · exact .inr hh
      · refine .inl fun hnil => hend ?_
        rw [List.append_eq_nil_iff] at hnil
        refine ⟨?_, hnil.2, hh⟩
        cases ts with
        | nil => rfl
        | cons t ts => simp [tailText] at hnil
    rw [pieceText, List.append_assoc, walk_first l₀ hparts.1 hdelim' hne]
    by_cases hlen : h.length ≤ 2
    · rw [if_pos hlen, walk_tail l₀ htail hparts.2 hdelim _ _ hroom, walk_stop _ hu]
      by_cases hts : ts = []
      · have hsingle : ¬ (u = [] ∧ h ≠ []) := fun hu => hend ⟨hts, hu⟩
        subst hts
        simp only [List.flatMap_nil, List.append_nil, ne_eq, not_true_eq_false, if_false]
        rw [if_neg hsingle]
        by_cases hnil : u = []
        · have hh : h = [] := by
            by_contra hh
            exact hsingle ⟨hnil, hh⟩
          simp [hnil, hh]
        · simp [hnil, hlen]
      · simp only [hts, hlen, ne_eq, not_false_eq_true, if_true, true_and]
    · rw [if_neg hlen, if_neg fun h => hlen h.1.1]

theorem walk_pieces (l₀ : ℤ) {ps : List (List (List Char))} (hne : ps ≠ [])
    (hps : ∀ p ∈ ps, Formed p) {u : List Char}
    (hu : u = [] ∨ ∃ q, u = '-' :: q ∧ noNumber q = true) (l : ℤ) {lineas : List ℤ}
    (hroom : lineas.length ≤ 128) :
    walk (.declared l₀) (piecesText ps ++ u) ',' l lineas =
      if Fits lineas ps (entries (u = []) l ps) then
        .done (if u = [] then some (lineas ++ entries (u = []) l ps) else none)
      else .undefined := by
  induction ps generalizing l lineas with
  | nil => exact absurd rfl hne
  | cons p ps ih =>
    rw [List.forall_mem_cons] at hps
    obtain ⟨hp, hps⟩ := hps
    obtain ⟨h, ts, rfl⟩ := List.exists_cons_of_ne_nil hp.nonempty
    cases ps with
    | nil =>
      have hentries : entries (u = []) l [h :: ts] = if ts ≠ [] then ts.flatMap (span (start l h))
          else if u = [] ∧ h ≠ [] then [start l h] else [] := by
        simp [entries]
      rw [hentries]
      refine (walk_lastPiece l₀ hp hu l hroom).trans ?_
      by_cases hnil : u = []
      · simp [hnil]
      · simp [hnil]
    | cons p' ps =>
      have hentries : entries (u = []) l ((h :: ts) :: p' :: ps) =
          (if ts ≠ [] then ts.flatMap (span (start l h)) else [start l h]) ++
            entries (u = []) (start l h) (p' :: ps) := by
        simp [entries]
      have htext : piecesText ((h :: ts) :: p' :: ps) ++ u =
          pieceText (h :: ts) ++ ',' :: (piecesText (p' :: ps) ++ u) := by
        rw [piecesText_cons _ (List.cons_ne_nil _ _), List.append_assoc]
        rfl
      rw [hentries, htext, walk_piece l₀ hp _ l hroom]
      generalize (if ts ≠ [] then ts.flatMap (span (start l h)) else [start l h]) = put
      by_cases hfit : Fits lineas [h :: ts] put
      · have hlen : (lineas ++ put).length ≤ 128 := by
          rw [List.length_append]
          exact hfit.2
        have hiff : Fits (lineas ++ put) (p' :: ps) (entries (u = []) (start l h) (p' :: ps)) ↔
            Fits lineas ((h :: ts) :: p' :: ps)
              (put ++ entries (u = []) (start l h) (p' :: ps)) := by
          have hfirst := List.forall_mem_singleton.mp hfit.1
          unfold Fits
          rw [List.forall_mem_cons (a := h :: ts), List.length_append, List.length_append,
            Nat.add_assoc, and_iff_right hfirst]
        rw [if_pos hfit, ih (List.cons_ne_nil _ _) hps (start l h) hlen, List.append_assoc]
        exact if_congr hiff rfl rfl
      · rw [if_neg hfit, if_neg]
        rintro ⟨hparts, hlen⟩
        rw [List.length_append] at hlen
        exact hfit ⟨fun p hp => hparts p (by simp [List.mem_singleton.mp hp]), by omega⟩

/-- The buffers have room for a text: no three digits in a row, and at most 128 entries. -/
def Roomy (l : ℤ) (s : List Char) : Prop :=
  Fits [] (pieces s) (entries (unread s = []) l (pieces s))

instance (l : ℤ) (s : List Char) : Decidable (Roomy l s) :=
  inferInstanceAs (Decidable (Fits _ _ _))

theorem walk_text (l : ℤ) {s : List Char} (hs : ∀ c ∈ s, c ≠ nul) :
    walk (.declared l) s ',' l [] = if Roomy l s then
      .done (if unread s = [] then some (entries true l (pieces s)) else none) else .undefined := by
  have hempty : ([] : List ℤ).length ≤ 128 := Nat.zero_le 128
  have hwalk := walk_pieces l (pieces_ne_nil s) (formed_pieces hs).1 (unread_eq s) l hempty
  rw [piecesText_pieces] at hwalk
  rw [hwalk]
  refine if_congr Iff.rfl ?_ rfl
  by_cases hnil : unread s = []
  · simp [hnil]
  · simp [hnil]

theorem ne_nul_of_checkChars {s : List Char} (h : checkChars s = true) : ∀ c ∈ s, c ≠ nul := by
  rintro c hc rfl
  exact absurd (List.all_eq_true.mp h nul hc) (by decide)

end SetLines

/-- What the parser, with the buffers that it declares, makes of any text. -/
theorem pmSetLines_eq (l : ℤ) (s : List Char) (lines : LineT) :
    pmSetLines (.declared l) s lines =
      if SetLines.checkChars s = true then
        if SetLines.Roomy l s then
          .done (if SetLines.unread s = [] then
            (0, (SetLines.entries true l (SetLines.pieces s)).foldl LineT.set LineT.clrAll)
          else (-1, lines))
        else .undefined
      else .done (-1, lines) := by
  rw [pmSetLines]
  by_cases hcheck : SetLines.checkChars s = true
  · rw [if_pos hcheck, if_pos hcheck, show (Scratch.declared l).l = l from rfl,
      SetLines.walk_text l (SetLines.ne_nul_of_checkChars hcheck)]
    by_cases hroom : SetLines.Roomy l s
    · rw [if_pos hroom, if_pos hroom, Outcome.done_bind]
      split_ifs <;> rfl
    · rw [if_neg hroom, if_neg hroom]
      rfl
  · rw [if_neg hcheck, if_neg hcheck]

/-! ## Room -/

/-- A text that the check accepts is parsed within the buffers exactly when, as far as it is
read, no number has three digits and no more than 128 entries are listed. -/
theorem buffers_hold_iff (l : ℤ) (s : List Char) (lines : LineT)
    (h : SetLines.checkChars s = true) :
    pmSetLines (.declared l) s lines ≠ .undefined ↔ SetLines.Roomy l s := by
  rw [pmSetLines_eq, if_pos h]
  split_ifs with hroom
  · simp [hroom]
  · simp [hroom]
  · simp [hroom]

theorem buffers_hold_ranges : SetLines.checkChars "0-9,12,40-63".toList = true ∧
    pmSetLines (.declared 0) "0-9,12,40-63".toList LineT.clrAll ≠ .undefined :=
  ⟨by decide, (buffers_hold_iff 0 _ LineT.clrAll (by decide)).mpr (by decide +kernel)⟩

/-- Three digits take five bytes of `cad`, and ranges may overlap. -/
theorem buffers_hold_fails :
    SetLines.checkChars "0-128".toList = true ∧
    pmSetLines (.declared 0) "0-128".toList LineT.clrAll = .undefined ∧
    SetLines.checkChars "0-63,0-63,5".toList = true ∧
    pmSetLines (.declared 0) "0-63,0-63,5".toList LineT.clrAll = .undefined := by
  rw [pmSetLines_eq, pmSetLines_eq]
  decide +kernel

/-! ## Rejection -/

def Malformed (s : List Char) : Prop :=
  s ≠ [] ∧ ∀ items : List Item, items ≠ [] → s ≠ Item.render items

/-- The parser rejects a malformed text exactly when it has a foreign character, or a dash
without a number that is reached within the buffers. -/
theorem malformed_rejected_iff (l : ℤ) (s : List Char) (lines : LineT) :
    (Malformed s → pmSetLines (.declared l) s lines = .done (-1, lines)) ↔
      (Malformed s → SetLines.checkChars s = false ∨
        SetLines.Roomy l s ∧ SetLines.unread s ≠ []) := by
  refine imp_congr_right fun _ => ?_
  rw [pmSetLines_eq]
  by_cases hcheck : SetLines.checkChars s = true
  · rw [if_pos hcheck]
    by_cases hroom : SetLines.Roomy l s
    · rw [if_pos hroom]
      by_cases hnil : SetLines.unread s = []
      · simp [hnil, hcheck]
      · simp [hnil, hroom]
    · simp [hroom, hcheck]
  · simp [hcheck]

theorem Num.text_ends (n : Num) : (∃ d q, n.text = digitChar d :: q) ∧
    ∃ d q, n.text = q ++ [digitChar d] := by
  obtain ⟨d, q, hq, _⟩ := SetLines.text_eq_cons n
  have hne : n.digits ≠ [] := List.ne_nil_of_length_pos n.pos
  refine ⟨⟨d, q, hq⟩, n.digits.getLast hne, n.digits.dropLast.map digitChar, ?_⟩
  rw [Num.text, ← List.map_singleton, ← List.map_append, List.dropLast_append_getLast]

theorem Item.text_ends (it : Item) : (∃ d q, it.text = digitChar d :: q) ∧
    ∃ d q, it.text = q ++ [digitChar d] := by
  cases it with
  | single n => exact n.text_ends
  | range lo hi =>
    obtain ⟨⟨d, q, hd⟩, _⟩ := lo.text_ends
    obtain ⟨_, d', q', hd'⟩ := hi.text_ends
    refine ⟨⟨d, q ++ '-' :: hi.text, ?_⟩, d', lo.text ++ '-' :: q', ?_⟩
    · rw [Item.text, hd, List.cons_append]
    · rw [Item.text, hd', List.append_assoc, List.cons_append]

theorem Item.render_ends {items : List Item} (hne : items ≠ []) :
    (∃ d q, Item.render items = digitChar d :: q) ∧
      ∃ d q, Item.render items = q ++ [digitChar d] := by
  induction items with
  | nil => exact absurd rfl hne
  | cons it its ih =>
    obtain ⟨⟨d, q, hd⟩, hlast⟩ := it.text_ends
    cases its with
    | nil => exact ⟨⟨d, q, hd⟩, hlast⟩
    | cons it' its =>
      obtain ⟨_, d', q', hd'⟩ := ih (List.cons_ne_nil _ _)
      refine ⟨⟨d, q ++ ',' :: Item.render (it' :: its), ?_⟩, d', it.text ++ ',' :: q', ?_⟩
      · rw [Item.render, hd, List.cons_append]
        exact List.cons_ne_nil _ _
      · rw [Item.render, hd', List.append_assoc, List.cons_append]
        exact List.cons_ne_nil _ _

/-- A comma at the end is accepted; so is one at the start, and what `l` holds is selected. -/
theorem malformed_rejected_fails :
    Malformed "5,".toList ∧
    pmSetLines (.declared 7) "5,".toList LineT.setAll = .done (0, LineT.clrAll.set 5) ∧
    Malformed ",5".toList ∧
    pmSetLines (.declared 7) ",5".toList LineT.setAll =
      .done (0, (LineT.clrAll.set 7).set 5) := by
  have hdigit : ∀ d : Fin 10, digitChar d ≠ ',' := by decide
  refine ⟨⟨by decide, fun items hne h => ?_⟩, ?_, ⟨by decide, fun items hne h => ?_⟩, ?_⟩
  · obtain ⟨_, d, q, hd⟩ := Item.render_ends hne
    have hlast := congrArg List.getLast? (h.trans hd)
    rw [List.getLast?_concat] at hlast
    exact hdigit d (Option.some.inj hlast).symm
  · rw [pmSetLines_eq]
    decide +kernel
  · obtain ⟨⟨d, q, hd⟩, _⟩ := Item.render_ends hne
    exact hdigit d (List.cons.inj (h.trans hd)).1.symm
  · rw [pmSetLines_eq]
    decide +kernel

end PMLib
