import ClassicX.Lib.Turns
import ClassicX.Server.Platform

/-! Stores one after another that stay inside of an object. -/

namespace ClassicX
open Turns (storesAt)

@[simp] theorem length_take (p : Ptr) (k : ℕ) : (p.take k).length = k := Fields.length_piece _ _ _

theorem take_eq (p : Ptr) (k : ℕ) : p.take k = (List.range k).map fun i : ℕ => p i := rfl

@[simp] theorem store_nil (p : Ptr) (n : Int) : p.store n [] = p := by
  funext i
  simp only [Ptr.store, List.length_nil]
  rw [if_neg (by omega)]

theorem store_cons (p : Ptr) (n : Int) (b : UInt8) (bs : List UInt8) :
    p.store n (b :: bs) = (Ptr.store (Function.update p n b) (n + 1) bs) := by
  funext i
  simp only [Ptr.store, List.length_cons, Nat.cast_add, Nat.cast_one]
  rcases lt_trichotomy i n with h | rfl | h
  · rw [if_neg (by omega), if_neg (by omega), Function.update_of_ne (by omega)]
  · rw [if_pos (by omega), if_neg (by omega), Function.update_self, Int.sub_self]
    rfl
  · by_cases hi : i < n + (bs.length + 1)
    · have hsucc : (i - n).toNat = (i - (n + 1)).toNat + 1 := by omega
      rw [if_pos (by omega), if_pos (by omega), hsucc, List.getD_cons_succ]
    · rw [if_neg (by omega), if_neg (by omega), Function.update_of_ne (by omega)]

theorem poke_storesAt {size : Int} {p : Ptr} {n : Int} {bs : List UInt8} (hn : 0 ≤ n) (h : n + bs.length ≤ size) :
    poke size p (storesAt n bs) = some (p.store n bs) := by
  induction bs generalizing p n with
  | nil => rw [store_nil]; rfl
  | cons b bs ih =>
    simp only [List.length_cons, Nat.cast_add, Nat.cast_one] at h
    rw [storesAt, poke, if_pos (by omega), ih (by omega) (by omega), store_cons]

theorem poke_append (size : Int) (p : Ptr) (stores stores' : List (Int × UInt8)) :
    poke size p (stores ++ stores') = (poke size p stores).bind fun p => poke size p stores' := by
  induction stores generalizing p with
  | nil => rfl
  | cons st stores ih =>
    rw [List.cons_append, poke, poke]
    split
    · exact ih _
    · rfl

theorem poke_some {size : Int} {stores : List (Int × UInt8)} (h : ∀ st ∈ stores, 0 ≤ st.1 ∧ st.1 < size) (p : Ptr) :
    ∃ p', poke size p stores = some p' := by
  induction stores generalizing p with
  | nil => exact ⟨p, rfl⟩
  | cons st stores ih =>
    rw [poke, if_pos (h st List.mem_cons_self)]
    exact ih (fun st hst => h st (List.mem_cons_of_mem _ hst)) _

theorem poke_none {size : Int} {p : Ptr} {stores : List (Int × UInt8)} {i : Int} {b : UInt8} (h : (i, b) ∈ stores)
    (hi : ¬(0 ≤ i ∧ i < size)) : poke size p stores = none := by
  induction stores generalizing p with
  | nil => cases h
  | cons st stores ih =>
    obtain ⟨j, c⟩ := st
    rw [poke]
    split
    · rcases List.mem_cons.mp h with h | h
      · obtain ⟨rfl, -⟩ := Prod.mk.inj h
        exact absurd ‹_› hi
      · exact ih h
    · rfl

theorem take_store (p : Ptr) (n : ℕ) (bs : List UInt8) : (p.store n bs).take (n + bs.length) = p.take n ++ bs := by
  rw [take_eq, List.range_add, List.map_append, List.map_map]
  congr 1
  · rw [take_eq]
    refine List.map_congr_left fun i hi => ?_
    have := List.mem_range.mp hi
    exact if_neg (by omega)
  · refine List.ext_getElem (by simp) fun i h₁ h₂ => ?_
    simp only [List.getElem_map, List.getElem_range, Function.comp_apply, Ptr.store]
    have hi : ((n + i : ℕ) - (n : Int)).toNat = i := by omega
    rw [if_pos (by push_cast; omega), hi, List.getD_eq_getElem?_getD, List.getElem?_eq_getElem h₂, Option.getD_some]

theorem take_take (p : Ptr) {n m : ℕ} (h : n ≤ m) : (p.take m).take n = p.take n := by
  rw [take_eq, take_eq, ← List.map_take, List.take_range, min_eq_left h]

theorem length_string_le (p : Ptr) : ((p.take 64).takeWhile (· ≠ 0)).length ≤ 64 := by
  have hle := (List.takeWhile_prefix (l := p.take 64) fun b : UInt8 => b ≠ 0).length_le
  rwa [length_take] at hle

theorem length_scopy (enam : Ptr) : (scopy enam).length = 64 := by
  have hle := length_string_le enam
  rw [scopy, List.length_append, List.length_replicate]
  omega

end ClassicX
