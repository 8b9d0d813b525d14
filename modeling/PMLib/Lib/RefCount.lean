import Mathlib.Data.List.Basic

/-! # Reference counts

A resource is counted correctly when its counter equals the number of holders. The lemmas
say how that number moves when a holder joins or one of them changes what it holds. -/
namespace RefCount

universe u v

variable {H : Type u} {R : Type v}

def holders (holds : H → R → Bool) (hs : List H) (r : R) : ℕ := hs.countP (holds · r)

variable {holds : H → R → Bool} {hs : List H} {r : R}

@[simp] theorem holders_nil : holders holds [] r = 0 := rfl

theorem holders_snoc (h : H) :
    holders holds (hs ++ [h]) r = holders holds hs r + (holds h r).toNat := by
  cases hr : holds h r <;> simp [holders, hr]

theorem holders_set (holds : H → R → Bool) (r : R) {k : ℕ} {h : H} (hk : hs[k]? = some h)
    (h' : H) :
    holders holds (hs.set k h') r + (holds h r).toNat =
      holders holds hs r + (holds h' r).toNat := by
  obtain ⟨hlt, rfl⟩ := List.getElem?_eq_some_iff.mp hk
  have hcount := List.countP_set (p := (holds · r)) (a := h') hlt
  have hle : (holds hs[k] r).toNat ≤ holders holds hs r := by
    cases hr : holds hs[k] r with
    | false => simp
    | true => exact List.countP_pos_iff.mpr ⟨hs[k], List.getElem_mem hlt, hr⟩
  unfold holders at hle ⊢
  rw [hcount]
  cases hr : holds hs[k] r <;> cases hr' : holds h' r <;> simp_all

theorem holders_pos {k : ℕ} {h : H} (hk : hs[k]? = some h) (hr : holds h r = true) :
    0 < holders holds hs r :=
  List.countP_pos_iff.mpr ⟨h, List.mem_of_getElem? hk, hr⟩

theorem holders_eq_zero : holders holds hs r = 0 ↔ ∀ h ∈ hs, holds h r = false := by
  simp [holders, List.countP_eq_zero]

theorem one_lt_holders {k : ℕ} {h : H} (hk : hs[k]? = some h) (hr : holds h r = true) :
    1 < holders holds hs r ↔ ∃ j h', j ≠ k ∧ hs[j]? = some h' ∧ holds h' r = true := by
  obtain ⟨hlt, rfl⟩ := List.getElem?_eq_some_iff.mp hk
  have hcount : holders holds hs r = holders holds (hs.eraseIdx k) r + 1 := by
    have hsplit := List.getElem_cons_drop hlt
    have htake := List.take_append_drop k hs
    unfold holders
    conv_lhs => rw [← htake, ← hsplit]
    rw [List.eraseIdx_eq_take_drop_succ]
    simp only [List.countP_append, List.countP_cons, hr, if_true]
    omega
  rw [hcount, Nat.lt_add_left_iff_pos, holders, List.countP_pos_iff]
  constructor
  · rintro ⟨h', hmem, hh⟩
    obtain ⟨j, hj, hjk⟩ := List.mem_eraseIdx_iff_getElem?.mp hmem
    exact ⟨j, h', hj, hjk, hh⟩
  · rintro ⟨j, h', hj, hjk, hh⟩
    exact ⟨h', List.mem_eraseIdx_iff_getElem?.mpr ⟨j, hj, hjk⟩, hh⟩

theorem holders_split (kind : H → Bool) :
    holders holds hs r = holders (fun h r => kind h && holds h r) hs r +
      holders (fun h r => !kind h && holds h r) hs r := by
  induction hs with
  | nil => rfl
  | cons h hs ih =>
    unfold holders at ih ⊢
    simp only [List.countP_cons, ih]
    cases kind h <;> cases holds h r <;> simp <;> omega

theorem getElem?_set_cases {as : List H} {k j : ℕ} {a x : H} (h : (as.set k a)[j]? = some x) :
    j = k ∧ x = a ∨ j ≠ k ∧ as[j]? = some x := by
  by_cases hjk : j = k
  · subst hjk
    rw [List.getElem?_set_self'] at h
    cases hs : as[j]? with
    | none => simp [hs] at h
    | some y => exact .inl ⟨rfl, by simpa [hs, eq_comm] using h⟩
  · rw [List.getElem?_set_ne (Ne.symm hjk)] at h
    exact .inr ⟨hjk, h⟩

theorem getElem?_snoc_cases {as : List H} {j : ℕ} {a x : H} (h : (as ++ [a])[j]? = some x) :
    j = as.length ∧ x = a ∨ as[j]? = some x := by
  rw [List.getElem?_append] at h
  split_ifs at h with hj
  · exact .inr h
  · obtain ⟨h₀, hx⟩ := List.getElem?_eq_some_iff.mp h
    simp only [List.length_singleton] at h₀
    refine .inl ⟨by omega, ?_⟩
    rw [← hx]
    simp

end RefCount
