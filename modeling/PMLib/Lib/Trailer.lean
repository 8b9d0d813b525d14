import Mathlib.Data.List.Chain
import Mathlib.Data.List.Basic

/-! # Frames with two marks at their end

A reader takes `n` elements and two more. If these are marks, what it took was a frame. If not, it
seeks two marks in a row and takes what follows. -/
namespace Trailer

universe u

variable {α : Type u}

inductive Reader (α : Type u) where
  | taking (w : List α)
  | seeking (seen : Bool)

/-- Where an element gets the reader, and the body of the frame that it completes. -/
def Reader.next (mark : α → Bool) (n : ℕ) : Reader α → α → Reader α × List (List α)
  | .taking w, x =>
    if w.length ≤ n then (.taking (w ++ [x]), [])
    else if w.getLast?.any mark && mark x then (.taking [], [w.take n])
    else (.seeking (mark x), [])
  | .seeking seen, x => (if seen && mark x then .taking [] else .seeking (mark x), [])

def Reader.run (mark : α → Bool) (n : ℕ) (r : Reader α) : List α → Reader α × List (List α)
  | [] => (r, [])
  | x :: xs =>
    let s := r.next mark n x
    let t := s.1.run mark n xs
    (t.1, s.2 ++ t.2)

/-- A frame. Its two marks are the only ones in it that stand together. -/
structure Frame (mark : α → Bool) (n : ℕ) where
  body : List α
  first : α
  second : α
  length : body.length = n
  first_mark : mark first = true
  second_mark : mark second = true
  quiet : (body ++ [first]).IsChain fun x y => (mark x && mark y) = false

variable {mark : α → Bool} {n : ℕ}

namespace Frame

def elements (f : Frame mark n) : List α := f.body ++ [f.first, f.second]

/-- It does not begin with a mark, which would stand behind the one of the frame before. -/
def Apart (f : Frame mark n) : Prop := ∀ x, f.elements.head? = some x → mark x = false

def Marked (f : Frame mark n) : Prop := ∃ x, f.elements.head? = some x ∧ mark x = true

theorem elements_eq (f : Frame mark n) : f.elements = (f.body ++ [f.first]) ++ [f.second] := by
  simp [elements]

theorem take_elements (f : Frame mark n) : (f.body ++ [f.first]).take n = f.body :=
  List.take_left' f.length

end Frame

namespace Reader

variable {r : Reader α} {f : Frame mark n}

theorem run_append (r : Reader α) (xs ys : List α) :
    r.run mark n (xs ++ ys) = (((r.run mark n xs).1.run mark n ys).1,
      (r.run mark n xs).2 ++ ((r.run mark n xs).1.run mark n ys).2) := by
  induction xs generalizing r with
  | nil => rfl
  | cons x xs ih => simp only [List.cons_append, run, ih, List.append_assoc]

def Fits (n : ℕ) : Reader α → Prop
  | .taking w => w.length ≤ n + 1
  | _ => True

theorem Fits.next (h : r.Fits n) (mark : α → Bool) (x : α) : (r.next mark n x).1.Fits n := by
  cases r with
  | seeking seen =>
    rw [Reader.next]
    split_ifs
    · exact Nat.zero_le _
    · trivial
  | taking w =>
    rw [Reader.next]
    split_ifs with hw
    · simpa [Fits] using hw
    · exact Nat.zero_le _
    · trivial

theorem Fits.run (h : r.Fits n) (mark : α → Bool) (xs : List α) : (r.run mark n xs).1.Fits n := by
  induction xs generalizing r with
  | nil => exact h
  | cons x xs ih => exact ih (h.next mark x)

/-! ## Taking -/

theorem run_taking {w v : List α} (h : w.length + v.length ≤ n + 1) :
    (Reader.taking w).run mark n v = (.taking (w ++ v), []) := by
  induction v generalizing w with
  | nil => rw [List.append_nil]; rfl
  | cons x v ih =>
    rw [List.length_cons] at h
    have hlen : (w ++ [x]).length + v.length ≤ n + 1 := by simp; omega
    rw [run, Reader.next, if_pos (by omega), ih hlen, List.append_assoc]
    rfl

theorem run_frame (f : Frame mark n) :
    (Reader.taking []).run mark n f.elements = (.taking [], [f.body]) := by
  have hlen : (f.body ++ [f.first]).length = n + 1 := by simp [f.length]
  rw [f.elements_eq, run_append, run_taking (by simp [hlen])]
  have hlast : (f.body ++ [f.first]).getLast?.any mark = true := by simp [f.first_mark]
  simp only [List.nil_append, run, Reader.next, hlast, f.second_mark, f.take_elements, hlen]
  rw [if_neg (by omega)]
  rfl

theorem run_frames (fs : List (Frame mark n)) :
    (Reader.taking []).run mark n (fs.flatMap Frame.elements) =
      (.taking [], fs.map Frame.body) := by
  induction fs with
  | nil => rfl
  | cons f fs ih =>
    rw [List.flatMap_cons, run_append, run_frame, ih]
    rfl

/-! ## Seeking -/

/-- In front of two marks together, what is sought is the last element that was seen. -/
theorem run_seeking {x : α} {v : List α}
    (h : (x :: v).IsChain fun x y => (mark x && mark y) = false) :
    (Reader.seeking (mark x)).run mark n v =
      (.seeking (mark ((x :: v).getLast (List.cons_ne_nil x v))), []) := by
  induction v generalizing x with
  | nil => rfl
  | cons y v ih =>
    obtain ⟨hxy, hrest⟩ := List.isChain_cons_cons.mp h
    rw [run, Reader.next, hxy, if_neg Bool.false_ne_true, ih hrest,
      List.getLast_cons (List.cons_ne_nil y v)]
    rfl

theorem run_rest {u v : List α} {x : α} (hsplit : f.body ++ [f.first] = u ++ x :: v) :
    (Reader.seeking (mark x)).run mark n (v ++ [f.second]) = (.taking [], []) := by
  have hchain : (x :: v).IsChain fun x y => (mark x && mark y) = false := by
    have hquiet := f.quiet
    rw [hsplit] at hquiet
    exact hquiet.right_of_append
  have hlast : (x :: v).getLast (List.cons_ne_nil x v) = f.first := by
    have hend := congrArg List.getLast? hsplit
    rw [List.getLast?_concat, List.getLast?_append_cons,
      List.getLast?_eq_some_getLast (List.cons_ne_nil x v)] at hend
    exact (Option.some.inj hend).symm
  rw [run_append, run_seeking hchain, hlast]
  simp [run, Reader.next, f.first_mark, f.second_mark]

theorem run_seeking_frame {seen : Bool} (h : seen = true → f.Apart) :
    (Reader.seeking seen).run mark n f.elements = (.taking [], []) := by
  obtain ⟨x, v, hsplit⟩ := List.exists_cons_of_ne_nil
    (List.append_ne_nil_of_right_ne_nil f.body (List.cons_ne_nil f.first []))
  have hhead : f.elements.head? = some x := by rw [f.elements_eq, hsplit]; rfl
  have hnot : (seen && mark x) = false := by
    cases seen with
    | false => rfl
    | true => exact h rfl x hhead
  rw [f.elements_eq, hsplit, List.cons_append, run, Reader.next, hnot, if_neg Bool.false_ne_true]
  exact congrArg (fun t : Reader α × List (List α) => (t.1, [] ++ t.2))
    (run_rest (u := []) hsplit)

/-! ## Getting into step -/

theorem run_taking_frame {w : List α} (hw : w ≠ []) (hfit : w.length ≤ n + 1) (h : f.Apart) :
    (Reader.taking w).run mark n f.elements = (.taking [], []) := by
  have hlen : (f.body ++ [f.first]).length = n + 1 := by simp [f.length]
  have hpos := List.length_pos_of_ne_nil hw
  -- what it takes of the frame are all elements of `u`, and `x` comes out as no mark
  obtain ⟨u, x, v, hsplit, hu⟩ : ∃ u x v, f.body ++ [f.first] = u ++ x :: v ∧
      w.length + u.length = n + 1 := by
    have hlt : n + 1 - w.length < (f.body ++ [f.first]).length := by omega
    refine ⟨(f.body ++ [f.first]).take (n + 1 - w.length), _, _,
      (List.take_append_drop (n + 1 - w.length) _).symm.trans
        (congrArg _ (List.drop_eq_getElem_cons hlt)), ?_⟩
    rw [List.length_take]
    omega
  have hnot : ((w ++ u).getLast?.any mark && mark x) = false := by
    rcases List.eq_nil_or_concat u with rfl | ⟨u, y, rfl⟩
    · have hhead : f.elements.head? = some x := by rw [f.elements_eq, hsplit]; rfl
      rw [h x hhead, Bool.and_false]
    · have hquiet := f.quiet
      rw [hsplit, List.concat_eq_append, List.append_assoc] at hquiet
      have hxy := (List.isChain_cons_cons.mp hquiet.right_of_append).1
      simpa [List.concat_eq_append, ← List.append_assoc] using hxy
  rw [f.elements_eq, hsplit, List.append_assoc, run_append, run_taking (by omega), List.cons_append,
    run, Reader.next, if_neg (by simp; omega), hnot, if_neg Bool.false_ne_true]
  exact congrArg (fun t : Reader α × List (List α) => (t.1, [] ++ ([] ++ t.2))) (run_rest hsplit)

def Astray (n : ℕ) : Reader α → Prop
  | .taking w => w ≠ [] ∧ w.length ≤ n + 1
  | .seeking _ => True

theorem run_astray (hr : r.Astray n) (h : f.Apart) :
    r.run mark n f.elements = (.taking [], []) := by
  cases r with
  | taking w => exact run_taking_frame hr.1 hr.2 h
  | seeking seen => exact run_seeking_frame fun _ => h

/-- Whatever a reader took before, it loses one frame at most, and makes nothing up. -/
theorem run_resync (hfit : r.Fits n) {fs : List (Frame mark n)}
    (h : ∀ f ∈ fs, f.Apart) (hne : fs ≠ []) : ∃ k ≤ 1,
      r.run mark n (fs.flatMap Frame.elements) = (.taking [], (fs.drop k).map Frame.body) := by
  obtain ⟨f, fs, rfl⟩ := List.exists_cons_of_ne_nil hne
  by_cases hstep : r = .taking []
  · subst hstep
    exact ⟨0, Nat.zero_le 1, run_frames _⟩
  · have hastray : r.Astray n := by
      cases r with
      | taking w => exact ⟨fun hw => hstep (hw ▸ rfl), hfit⟩
      | seeking seen => trivial
    refine ⟨1, le_rfl, ?_⟩
    rw [List.flatMap_cons, run_append, run_astray hastray (h f (by simp)), run_frames]
    rfl

/-! ## Out of step by one -/

end Reader

end Trailer
