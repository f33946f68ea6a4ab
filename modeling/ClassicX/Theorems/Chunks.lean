import ClassicX.Theorems.Join

/-! The lengths of the chunks of a level. `initseq` cuts what is left of the level to 16 bits before it takes the minimum,
so that the lengths are right as long as the whole level fits in 16 bits. -/

namespace ClassicX

/-- The lengths that the loop passes to `selvldata`, up to a call that is not defined. -/
def initseq.lens : ℕ → World → Int → List Int
  | 0, _, _ => []
  | k + 1, w, i =>
    if i < w.z.lcur.filelen then
      let len := mins (Int16.ofInt (w.z.lcur.filelen - i)).toInt MCARRAYLEN
      match selvldata w len (w.z.lcur.cdat.incr i) 0 with
      | some (_, w) => len :: initseq.lens k w (i + MCARRAYLEN)
      | none => [len]
    else
      []

/-- The calls of `selvldata` with the lengths of a list, from `i` on. -/
def initseq.calls : List Int → World → Int → Int → Option (Int × World)
  | [], w, _, ret => some (ret, w)
  | len :: lens, w, i, ret => do
    let (r, w) ← selvldata w len (w.z.lcur.cdat.incr i) 0
    initseq.calls lens w (i + MCARRAYLEN) (if r ≠ 0 then -1 else ret)

/-- The lengths that `initseq` passes to `selvldata`. -/
def initseq.passes (w : World) : Option (List Int) := do
  let w := w.withFlg 1
  warn w.z.cent.enam
  let (_, w) ← segreeting w
  let (_, w) ← senewlvl (w.withCtr 0)
  some (initseq.lens ((w.z.lcur.filelen / MCARRAYLEN).toNat + 2) w 0)

/-- Every length is what is left of the level, but not more than an array has, and the lengths make up the level. -/
structure Chunked (filelen : Int) (lens : List Int) : Prop where
  eq : ∀ (j : ℕ) (len : Int), lens[j]? = some len → len = min (filelen - 1024 * j) 1024
  range : ∀ len ∈ lens, 1 ≤ len ∧ len ≤ 1024
  sum : lens.sum = filelen

section Loop
variable {w : World} {k : ℕ} {i left : Int}

/-- The loop makes its calls with these lengths, and no others. -/
theorem loop_calls {ret : Int} {r : Int × World} (h : initseq.loop k w i ret = some r) :
    initseq.calls (initseq.lens k w i) w i ret = some r := by
  induction k generalizing w i ret with
  | zero => cases h
  | succ k ih =>
    rw [initseq.loop] at h
    rw [initseq.lens]
    by_cases hi : i < w.z.lcur.filelen
    · rw [if_pos hi] at h
      obtain ⟨⟨r₁, w₁⟩, hcall, h⟩ := Option.bind_eq_some_iff.mp h
      simp only [if_pos hi, hcall, initseq.calls, Option.bind_eq_bind, Option.bind_some]
      exact ih h
    · rw [if_neg hi] at h ⊢
      exact h

theorem Chunked.nil : Chunked 0 [] := ⟨fun _ _ h => (by cases h), fun _ h => (by cases h), rfl⟩

theorem Chunked.singleton (hpos : 1 ≤ left) (hleft : left ≤ 1024) : Chunked left [left] := by
  refine ⟨fun j len hj => ?_, fun len hlen => ?_, by simp⟩
  · cases j with
    | zero =>
      obtain rfl := Option.some.inj hj
      simp
      omega
    | succ j => cases hj
  · obtain rfl := List.mem_singleton.mp hlen
    exact ⟨hpos, hleft⟩

theorem Chunked.tail {len : Int} {lens : List Int} (h : Chunked left (len :: lens)) (hleft : 1024 ≤ left) :
    Chunked (left - 1024) lens := by
  have hlen : len = 1024 := by
    rw [h.eq 0 len rfl]
    simp
    omega
  refine ⟨fun j len' hj => ?_, fun len' hlen' => h.range len' (List.mem_cons_of_mem _ hlen'), ?_⟩
  · rw [h.eq (j + 1) len' hj]
    push_cast
    congr 1
    omega
  · have hsum := h.sum
    rw [List.sum_cons] at hsum
    omega

theorem Chunked.cons {lens : List Int} (h : Chunked (left - 1024) lens) (hleft : 1024 ≤ left) :
    Chunked left (1024 :: lens) := by
  refine ⟨fun j len hj => ?_, fun len hlen => ?_, ?_⟩
  · cases j with
    | zero =>
      obtain rfl := Option.some.inj hj
      simp
      omega
    | succ j =>
      rw [h.eq j len hj]
      push_cast
      congr 1
      omega
  · rcases List.mem_cons.mp hlen with rfl | hlen
    · omega
    · exact h.range len hlen
  · rw [List.sum_cons, h.sum]
    omega

/-- A call with a length that is not negative leads to a state where the loop goes on with the same level. -/
theorem lens_step (k : ℕ) (hidle : w.z.session.Idle) (hi : i < w.z.lcur.filelen) {len : Int}
    (hlen : mins (Int16.ofInt (w.z.lcur.filelen - i)).toInt MCARRAYLEN = len) (hpos : 0 ≤ len) :
    ∃ w', initseq.lens (k + 1) w i = len :: initseq.lens k w' (i + MCARRAYLEN) ∧ w'.z.session.Idle ∧ w'.z.lcur = w.z.lcur := by
  obtain ⟨w', hr, hp⟩ := selvldata_gives (w.z.lcur.cdat.incr i) 0 hidle hpos
  refine ⟨w', ?_, hp.idle, hp.lcur⟩
  simp only [initseq.lens, if_pos hi, hlen, hr]

theorem lens_chunked (hidle : w.z.session.Idle) (hleft : left = w.z.lcur.filelen - i) (h0 : 0 ≤ left) (hbig : left ≤ 32767)
    (hk : left < 1024 * k) : Chunked left (initseq.lens k w i) := by
  induction k generalizing w i left with
  | zero => omega
  | succ k ih =>
    rcases h0.eq_or_lt with h0 | hpos
    · rw [initseq.lens, if_neg (by omega), ← h0]
      exact .nil
    · have hnarrow : (Int16.ofInt (w.z.lcur.filelen - i)).toInt = left := by
        rw [← hleft]
        exact Int16.toInt_ofInt_of_le (by omega) (by omega)
      have hlen : mins (Int16.ofInt (w.z.lcur.filelen - i)).toInt MCARRAYLEN = min left 1024 := by
        rw [hnarrow, mins_eq]
        rfl
      obtain ⟨w', hlens, hidle', hl⟩ := lens_step k hidle (by omega) hlen (by omega)
      rw [hlens, MCARRAYLEN]
      by_cases hlast : left ≤ 1024
      · have hend : initseq.lens k w' (i + 1024) = [] := by
          cases k with
          | zero => rfl
          | succ k => rw [initseq.lens, if_neg (by rw [hl]; omega)]
        rw [hend, min_eq_left hlast]
        exact .singleton (by omega) hlast
      · rw [min_eq_right (by omega)]
        have hleft' : left - 1024 = w'.z.lcur.filelen - (i + 1024) := by
          rw [hl]
          omega
        exact (ih hidle' hleft' (by omega) (by omega) (by push_cast at hk; omega)).cons (by omega)

/-- Where more than 32767 bytes are left, the loop comes to a length that is not right. -/
theorem lens_not_chunked (hidle : w.z.session.Idle) (hleft : left = w.z.lcur.filelen - i) (hbig : 32768 ≤ left) :
    ¬Chunked left (initseq.lens k w i) := by
  induction k generalizing w i left with
  | zero =>
    intro h
    have hsum := h.sum
    rw [initseq.lens, List.sum_nil] at hsum
    omega
  | succ k ih =>
    intro h
    have hi : i < w.z.lcur.filelen := by omega
    -- The first length is that of a whole array, as the loop has not come to an end.
    have hlen : mins (Int16.ofInt (w.z.lcur.filelen - i)).toInt MCARRAYLEN = 1024 := by
      have hfirst : ∃ lens, initseq.lens (k + 1) w i =
          mins (Int16.ofInt (w.z.lcur.filelen - i)).toInt MCARRAYLEN :: lens := by
        simp only [initseq.lens, if_pos hi]
        split
        · exact ⟨_, rfl⟩
        · exact ⟨_, rfl⟩
      obtain ⟨lens, hfirst⟩ := hfirst
      rw [hfirst] at h
      rw [h.eq 0 _ rfl]
      simp
      omega
    obtain ⟨w', hlens, hidle', hl⟩ := lens_step k hidle hi hlen (by decide)
    rw [hlens] at h
    have hmore : 32768 ≤ left - 1024 := by
      -- From 32768 to 33791 the 16 bits are those of a negative number.
      by_contra hno
      have hneg : (Int16.ofInt left).toInt = left - 65536 := by
        rw [Int16.toInt_ofInt, Int16.size, Int.bmod_def]
        split <;> omega
      rw [mins_eq, ← hleft, hneg, MCARRAYLEN] at hlen
      omega
    exact ih hidle' (by rw [hl, MCARRAYLEN]; omega) hmore (h.tail (by omega))

end Loop

/-- The loop starts after the greeting of the server and the number of the new level. -/
theorem passes_lens {w : World} (hidle : w.z.session.Idle) (henam : w.z.cent.enam ≠ none) :
    ∃ w₂, initseq.passes w = some (initseq.lens ((w.z.lcur.filelen / MCARRAYLEN).toNat + 2) w₂ 0) ∧ w₂.z.session.Idle ∧
      w₂.z.lcur = w.z.lcur := by
  obtain ⟨p, hp⟩ := Option.ne_none_iff_exists'.mp henam
  have hwarn : warn (w.withFlg 1).z.cent.enam = some () := by
    rw [World.withFlg, hp]
    rfl
  obtain ⟨w₁, h₁, hp₁⟩ := segreeting_gives (w := w.withFlg 1) hidle
  have hp₁' := hp₁.withCtr 0
  obtain ⟨w₂, h₂, hp₂⟩ := segeneric_gives .lnew .null hp₁'.idle trivial
  have hl : w₂.z.lcur = w.z.lcur := hp₂.lcur.trans hp₁'.lcur
  refine ⟨w₂, ?_, hp₂.idle, hl⟩
  simp only [initseq.passes, hwarn, h₁, senewlvl, h₂, hl, Option.bind_eq_bind, Option.bind_some]

/-- The lengths are right exactly if the level has at most 32767 bytes. -/
theorem passes_chunked_iff (w : World) (hidle : w.z.session.Idle) (henam : w.z.cent.enam ≠ none)
    (hlen : 0 ≤ w.z.lcur.filelen) :
    ∃ lens, initseq.passes w = some lens ∧ (Chunked w.z.lcur.filelen lens ↔ w.z.lcur.filelen ≤ 32767) := by
  obtain ⟨w₂, hpasses, hidle₂, hl⟩ := passes_lens hidle henam
  have hleft : w.z.lcur.filelen = w₂.z.lcur.filelen - 0 := by rw [hl, sub_zero]
  refine ⟨_, hpasses, fun h => ?_, fun hsmall => ?_⟩
  · by_contra hbig
    exact lens_not_chunked hidle₂ hleft (by omega) h
  · exact lens_chunked hidle₂ hleft hlen hsmall (by rw [MCARRAYLEN]; push_cast; omega)

/-- A level of 1025 bytes. -/
theorem passes_chunked_iff_two : ∃ (w : World) (lens : List Int), w.z.lcur.filelen = 1025 ∧
    initseq.passes w = some lens ∧ (Chunked 1025 lens ↔ (1025 : Int) ≤ 32767) := by
  obtain ⟨lens, hr, hiff⟩ := passes_chunked_iff
    { z := { session := fresh 7, cent := { enam := some fun _ => 0 }, lcur := ⟨fun _ => 0, 1025, {}⟩ }, stdin := ⟨[], false⟩ }
    ⟨rfl, rfl⟩ (Option.some_ne_none _) (by decide)
  exact ⟨_, lens, rfl, hr, hiff⟩

/-- What is left of a level of 32768 bytes is -32768 in 16 bits. -/
theorem passes_wrap : ∃ (w : World) (lens : List Int), w.z.session.Idle ∧ w.z.lcur.filelen = 32768 ∧
    initseq.passes w = some lens ∧ ¬Chunked 32768 lens := by
  obtain ⟨w₂, hpasses, hidle₂, hl⟩ := passes_lens
    (w := { z := { session := fresh 7, cent := { enam := some fun _ => 0 }, lcur := ⟨fun _ => 0, 32768, {}⟩ }, stdin := ⟨[], false⟩ })
    ⟨rfl, rfl⟩ (Option.some_ne_none _)
  exact ⟨_, _, ⟨rfl, rfl⟩, rfl, hpasses, lens_not_chunked hidle₂ (by rw [hl]; rfl) le_rfl⟩

end ClassicX
