import ClassicX.Mccp.Reader

/-! `mcreset` stores its zeros over the first session only: of the others, it sets the protocol version. -/

namespace ClassicX

theorem getElem?_resetpv (pv : Int) (sany : List Mcx) (qty i : ℕ) :
    (resetpv pv sany qty)[i]? = if i < qty then sany[i]?.map fun s => { s with curpv := pv } else sany[i]? := by
  induction qty generalizing sany with
  | zero => rfl
  | succ qty ih =>
    rw [resetpv, ih]
    rcases lt_trichotomy i qty with hi | rfl | hi
    · rw [if_pos hi, if_pos (by omega), List.getElem?_modify_ne _ _ (by omega)]
    · rw [if_neg (lt_irrefl i), if_pos (Nat.lt_succ_self i), List.getElem?_modify_eq]
      rfl
    · rw [if_neg (by omega), if_neg (by omega), List.getElem?_modify_ne _ _ (by omega)]

theorem mcreset_eq (s : Mcx) (ss : List Mcx) (pv : Int) :
    (mcreset (s :: ss) (s :: ss).length pv).1 = fresh pv :: ss.map fun s => { s with curpv := pv } := by
  refine List.ext_getElem? fun i => ?_
  simp only [mcreset, getElem?_resetpv, List.set_cons_zero]
  by_cases hi : i < (s :: ss).length
  · rw [if_pos hi]
    cases i with
    | zero => rfl
    | succ i => simp
  · rw [if_neg hi, List.getElem?_eq_none (by simpa using hi), List.getElem?_eq_none (by simpa using hi)]

theorem withCurpv_eq_fresh {s : Mcx} {pv : Int} : { s with curpv := pv } = fresh pv ↔ s = fresh s.curpv := by
  obtain ⟨curpv, pstate, flg, r, w⟩ := s
  simp [fresh]

/-- Every session is reset exactly if the sessions past the first one were in the initial state but for their version. -/
theorem mcreset_iff (sany : List Mcx) (pv : Int) (hqty : 1 ≤ sany.length) :
    (∀ s ∈ (mcreset sany sany.length pv).1, s = fresh pv) ↔ ∀ s ∈ sany.tail, s = fresh s.curpv := by
  cases sany with
  | nil => cases hqty
  | cons s ss =>
    rw [mcreset_eq, List.forall_mem_cons, List.forall_mem_map, List.tail_cons]
    simp only [true_and, withCurpv_eq_fresh]

/-- The only caller has a single session. -/
theorem mcreset_iff_one : ∃ s : Mcx, s.r.rem = 10 ∧
    ((∀ t ∈ (mcreset [s] 1 7).1, t = fresh 7) ↔ ∀ t ∈ [s].tail, t = fresh t.curpv) :=
  ⟨{ fresh 3 with r := ⟨10, .greeting, .name⟩ }, rfl, mcreset_iff [_] 7 le_rfl⟩

/-- The second session still reads a name. -/
theorem mcreset_stale : ¬∀ s ∈ (mcreset [fresh 0, { fresh 3 with r := ⟨10, .greeting, .name⟩ }] 2 7).1, s = fresh 7 := by
  decide

end ClassicX
