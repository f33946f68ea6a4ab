import Mathlib.Data.List.DropRight
import ClassicX.Server.Client
import ClassicX.Server.Msp430
import ClassicX.Theorems.Memory

/-! What `strim` trims and `ctname` saves: a name is too long if there is something but a blank past its first 20
characters, and any other name has 1 to 20. -/

namespace ClassicX

/-- Longer than 20 characters when trimmed. -/
def Long (name : Ptr) : Prop := ∃ i : ℕ, 20 ≤ i ∧ i < 64 ∧ name i ≠ 0x20

/-- Nothing is left when trimmed. -/
def Blank (name : Ptr) : Prop := ∀ i : ℕ, i < 64 → name i = 0x20

theorem Blank.not_long {name : Ptr} (h : Blank name) : ¬Long name := fun ⟨i, _, hi, hne⟩ => hne (h i hi)

theorem lt_last {buf : Ptr} {k n : ℕ} : k < strim.last buf n ↔ ∃ i : ℕ, k < i ∧ i < n ∧ buf i ≠ 0x20 := by
  induction n with
  | zero => simp [strim.last]
  | succ n ih =>
    rw [strim.last]
    split
    · rename_i hblank
      rw [ih]
      constructor
      · rintro ⟨i, hk, hi, hne⟩
        exact ⟨i, hk, by omega, hne⟩
      · rintro ⟨i, hk, hi, hne⟩
        rcases Nat.lt_succ_iff_lt_or_eq.mp hi with hi | rfl
        · exact ⟨i, hk, hi, hne⟩
        · exact absurd hblank.2.symm hne
    · rename_i hstop
      constructor
      · intro hk
        exact ⟨n, hk, by omega, fun h => hstop ⟨by omega, h.symm⟩⟩
      · rintro ⟨i, hk, hi, -⟩
        omega

/-! ### Trimming -/

/-- The length of a string without the blanks at its end. -/
def trimmed (bs : List UInt8) : ℕ := (bs.rdropWhile (· = 0x20)).length

theorem lt_trimmed {bs : List UInt8} {k : ℕ} : k < trimmed bs ↔ ∃ i, ∃ h : i < bs.length, k ≤ i ∧ bs[i] ≠ 0x20 := by
  rw [trimmed]
  induction bs using List.reverseRecOn with
  | nil => simp
  | append_singleton bs b ih =>
    rw [List.rdropWhile_concat]
    by_cases hb : b = 0x20
    · rw [if_pos (by simpa using hb), ih]
      constructor
      · rintro ⟨i, h, hk, hne⟩
        refine ⟨i, by rw [List.length_append]; omega, hk, ?_⟩
        rwa [List.getElem_append_left h]
      · rintro ⟨i, h, hk, hne⟩
        rw [List.length_append, List.length_singleton] at h
        by_cases hi : i < bs.length
        · rw [List.getElem_append_left hi] at hne
          exact ⟨i, hi, hk, hne⟩
        · rw [List.getElem_append_right (by omega), List.getElem_singleton] at hne
          exact absurd hb hne
    · rw [if_neg (by simpa using hb)]
      constructor
      · intro hk
        rw [List.length_append, List.length_singleton] at hk
        refine ⟨bs.length, by simp, by omega, ?_⟩
        simpa using hb
      · rintro ⟨i, h, hk, -⟩
        omega

theorem lt_trimmed_take {buf : Ptr} {n k : ℕ} : k < trimmed (buf.take n) ↔ ∃ i : ℕ, k ≤ i ∧ i < n ∧ buf i ≠ 0x20 := by
  rw [lt_trimmed, take_eq]
  simp only [List.length_map, List.length_range, List.getElem_map, List.getElem_range]
  constructor
  · rintro ⟨i, hi, hk, hne⟩
    exact ⟨i, hk, hi, hne⟩
  · rintro ⟨i, hk, hi, hne⟩
    exact ⟨i, hi, hk, hne⟩

theorem blank_iff {buf : Ptr} : Blank buf ↔ trimmed (buf.take 64) = 0 := by
  rw [← not_iff_not, ← ne_eq, ← Nat.pos_iff_ne_zero, lt_trimmed_take, Blank]
  push Not
  exact ⟨fun ⟨i, hi, hne⟩ => ⟨i, Nat.zero_le i, hi, hne⟩, fun ⟨i, _, hi, hne⟩ => ⟨i, hi, hne⟩⟩

/-- The first character is never trimmed. -/
theorem last_eq (buf : Ptr) : strim.last buf 64 + 1 = max 1 (trimmed (buf.take 64)) := by
  have hlt : ∀ k, k < strim.last buf 64 ↔ k + 1 < trimmed (buf.take 64) := fun k => by rw [lt_last, lt_trimmed_take]; rfl
  have hself := hlt (strim.last buf 64)
  have hpred := hlt (strim.last buf 64 - 1)
  omega

/-- The two implementations look at the bytes in the same order, and stop at the same one. -/
theorem Msp430.last_eq (buf : Ptr) (n : ℕ) : Msp430.strim.last buf n = ClassicX.strim.last buf n := by
  induction n with
  | zero => rfl
  | succ n ih =>
    rw [Msp430.strim.last, ClassicX.strim.last, ih]
    by_cases hblank : 0x20 = buf n
    · rw [if_neg (not_not.mpr hblank)]
      rcases Nat.eq_zero_or_pos n with rfl | hpos
      · rfl
      · rw [if_pos ⟨by omega, hblank⟩]
    · rw [if_pos hblank, if_neg fun h => hblank h.2]

theorem Msp430.strim_eq : Msp430.strim = ClassicX.strim := by
  funext dst buf max
  simp only [Msp430.strim, ClassicX.strim, Msp430.last_eq]

/-- `f` stores the trimmed buffer with a NUL if that is not longer than `max`, and nothing else. -/
structure Trims (f : Ptr → Ptr → Int → Int × Ptr) (dst buf : Ptr) (max : Int) : Prop where
  fits : trimmed (buf.take 64) ≤ max →
    f dst buf max = ((trimmed (buf.take 64) : Int), dst.store 0 (buf.take (trimmed (buf.take 64)) ++ [0]))
  long : max < trimmed (buf.take 64) → f dst buf max = (-1, dst)

theorem Trims.of_not_blank {dst buf : Ptr} {max : Int} (h : ¬Blank buf) : Trims strim dst buf max := by
  have hpos : trimmed (buf.take 64) ≠ 0 := fun h0 => h (blank_iff.mpr h0)
  have hlast : strim.last buf 64 + 1 = trimmed (buf.take 64) := by
    rw [last_eq]
    omega
  constructor
  · intro hle
    simp only [strim, hlast, if_neg (not_lt.mpr hle)]
  · intro hlt
    simp only [strim, hlast, if_pos hlt]

theorem not_trims_of_blank {dst buf : Ptr} {max : Int} (hmax : 0 ≤ max) (h : Blank buf) : ¬Trims strim dst buf max := by
  intro htrims
  have hzero := blank_iff.mp h
  have hr := congrArg Prod.fst (htrims.fits (by rw [hzero]; exact hmax))
  have hlast : strim.last buf 64 + 1 = 1 := by
    rw [last_eq, hzero]
    rfl
  rw [hzero] at hr
  simp only [strim, hlast] at hr
  split at hr
  · cases hr
  · cases hr

/-- Both implementations trim exactly the buffers that are not blank, and they do the same to any. -/
theorem trims_iff (dst buf : Ptr) {max : Int} (hmax : 0 ≤ max) : Msp430.strim dst buf max = strim dst buf max ∧
    (Trims strim dst buf max ∧ Trims Msp430.strim dst buf max ↔ ¬Blank buf) := by
  rw [Msp430.strim_eq, and_self_iff]
  exact ⟨rfl, fun h hblank => not_trims_of_blank hmax hblank h, fun h => .of_not_blank h⟩

/-- A buffer with a character. -/
theorem trims_iff_character : ¬Blank (fun i => if i = 0 then 65 else 0x20) ∧
    (Trims strim (fun _ => 0) (fun i => if i = 0 then 65 else 0x20) 20 ∧
        Trims Msp430.strim (fun _ => 0) (fun i => if i = 0 then 65 else 0x20) 20 ↔
      ¬Blank fun i => if i = 0 then 65 else 0x20) :=
  ⟨fun h => absurd (h 0 (by decide)) (by decide), (trims_iff (fun _ => 0) _ (by decide)).2⟩

/-- Of a blank buffer, one blank is left. -/
theorem blank_untrimmed : ¬Trims strim (fun _ => 0) (fun _ => 0x20) 20 := by
  intro h
  have hr := congrArg Prod.fst (h.fits (by decide +kernel))
  revert hr
  decide +kernel

/-! ### Saving -/

theorem long_iff {buf : Ptr} : Long buf ↔ 20 < strim.last buf 64 + 1 := by
  rw [Nat.lt_succ_iff, ← Nat.lt_iff_add_one_le, lt_last]
  rfl

/-- A name that is too long is saved with length -1. The length is never 0: `strim` does not look at the first
    character. -/
theorem save_length (w : World) :
    (Long w.inbuf → (ctname.save w).1 = -1) ∧ (¬Long w.inbuf → 1 ≤ (ctname.save w).1 ∧ (ctname.save w).1 ≤ 20) := by
  rw [long_iff]
  simp only [ctname.save, strim_stdc, strim]
  constructor
  · intro h
    rw [if_pos (by omega)]
  · intro h
    rw [if_neg (by omega)]
    simp only
    omega

end ClassicX
