import ClassicX.Server.Msp430

/-! What a step of the chip does, and how the indices and the counts of its rings move. -/

namespace ClassicX.Msp430

/-! ### Indices -/

section Indices
variable {x : UInt8} {n : ℕ}

theorem toNat_mask (x : UInt8) : (x &&& 15).toNat = x.toNat % 16 := by
  rw [UInt8.toNat_and]
  exact Nat.and_two_pow_sub_one_eq_mod x.toNat 4

theorem index_incr (h : x.toNat = n % 16) : (x + 1).toNat = n % 16 + 1 := by
  rw [UInt8.toNat_add, h]
  simp
  omega

theorem index_wrap (h : x.toNat = n % 16 + 1) : (x &&& 15).toNat = (n + 1) % 16 := by
  rw [toNat_mask, h]
  omega

theorem index_next (h : x.toNat = n % 16) : ((x + 1) &&& 15).toNat = (n + 1) % 16 := index_wrap (index_incr h)

theorem count_lower (h : x ≠ 0) : (x - 1).toNat + 1 = x.toNat := by
  have hpos : x.toNat ≠ 0 := fun h0 => h (UInt8.toNat_inj.mp h0)
  have hlt := x.toNat_lt
  rw [UInt8.toNat_sub]
  simp
  omega

theorem count_raise (h : x.toNat < 255) : (x + 1).toNat = x.toNat + 1 := by
  rw [UInt8.toNat_add]
  simp
  omega

end Indices

/-! ### Steps -/

/-- The steps, by what takes them. -/
inductive Happens (s : Chip) : Act → Chip → Prop
  | input (qty : ℕ) (hmain : s.main = .rest) : Happens s (.input qty) (input.loop s [] qty)
  | output (src : List UInt8) (hmain : s.main = .rest) :
      Happens s (.output src) (output.loop { s with outputs := s.outputs ++ [src] } src)
  | cget {dst : List UInt8} {qty : ℕ} {pc : Cget} (hawake : s.asleep = false) (hmain : s.main = .input dst qty pc) :
      Happens s .stmt (Msp430.cget s dst qty pc)
  | cput {src : UInt8} {bytes : List UInt8} {pc : Cput} (hawake : s.asleep = false) (hmain : s.main = .output src bytes pc) :
      Happens s .stmt (Msp430.cput s src bytes pc)
  | rxdo (rxbuf : UInt8) (hgie : s.gie = true) : Happens s (.rxdo rxbuf) (Msp430.rxdo s rxbuf)
  | txdo (hgie : s.gie = true) (htxie : s.txie = true) (hfree : s.free = true) : Happens s .txdo (Msp430.txdo s)
  | idle : Happens s .idle { s with free := true }

theorem step_happens {s s' : Chip} {act : Act} (h : step s act = some s') : Happens s act s' := by
  cases act with
  | input qty =>
    simp only [step, Option.ite_none_right_eq_some, Option.some.injEq] at h
    obtain ⟨hmain, rfl⟩ := h
    exact .input qty hmain
  | output src =>
    simp only [step, Option.ite_none_right_eq_some, Option.some.injEq] at h
    obtain ⟨hmain, rfl⟩ := h
    exact .output src hmain
  | stmt =>
    simp only [step, Option.ite_none_left_eq_some] at h
    obtain ⟨hawake, h⟩ := h
    have hawake : s.asleep = false := Bool.eq_false_iff.mpr hawake
    split at h
    · cases h
    · cases h
      exact .cget hawake ‹_›
    · cases h
      exact .cput hawake ‹_›
  | rxdo rxbuf =>
    simp only [step, Option.ite_none_right_eq_some, Option.some.injEq] at h
    obtain ⟨hgie, rfl⟩ := h
    exact .rxdo rxbuf hgie
  | txdo =>
    simp only [step, Option.ite_none_right_eq_some, Option.some.injEq] at h
    obtain ⟨⟨hgie, htxie, hfree⟩, rfl⟩ := h
    exact .txdo hgie htxie hfree
  | idle =>
    cases h
    exact .idle

end ClassicX.Msp430
