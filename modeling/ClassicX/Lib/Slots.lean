import Mathlib.Data.List.Basic
import Mathlib.Data.Nat.ModEq
import Mathlib.Logic.Function.Basic

/-! # Rings of slots

A ring keeps a window of a stream: value `k` of the stream is in slot `k % size`, from `front` on and up to `back`. The
stream grows at its end, a value enters the window at its back, and leaves it at its front. -/

namespace Slots
variable {α : Type}

/-- The slots hold the values of the stream from `front` up to `back`. -/
structure Window (size : ℕ) (slots : ℕ → α) (stream : List α) (front back : ℕ) : Prop where
  le : front ≤ back
  fits : back ≤ front + size
  within : back ≤ stream.length
  holds : ∀ k, front ≤ k → k < back → stream[k]? = some (slots (k % size))

section
variable {size front back : ℕ} {slots : ℕ → α} {stream : List α}

theorem Window.empty (size : ℕ) (slots : ℕ → α) : Window size slots [] 0 0 :=
  ⟨le_rfl, Nat.zero_le _, le_rfl, fun _ _ h => absurd h (Nat.not_lt_zero _)⟩

/-- Values that are less than `size` apart have different slots. -/
theorem slot_ne {k n : ℕ} (hlt : k < n) (hfits : n < k + size) : k % size ≠ n % size := by
  intro h
  have hdvd : size ∣ n - k := (Nat.modEq_iff_dvd' (Nat.le_of_lt hlt)).mp h
  have hle := Nat.le_of_dvd (by omega) hdvd
  omega

namespace Window
variable (h : Window size slots stream front back)
include h

theorem grow (more : List α) : Window size slots (stream ++ more) front back where
  le := h.le
  fits := h.fits
  within := by
    have := h.within
    rw [List.length_append]
    omega
  holds k hle hlt := by
    have := h.within
    rw [List.getElem?_append_left (by omega), h.holds k hle hlt]

theorem push {x : α} (hroom : back < front + size) (hx : stream[back]? = some x) :
    Window size (Function.update slots (back % size) x) stream front (back + 1) where
  le := Nat.le_succ_of_le h.le
  fits := hroom
  within := by
    obtain ⟨hlt, -⟩ := List.getElem?_eq_some_iff.mp hx
    exact hlt
  holds k hle hlt := by
    rcases Nat.lt_succ_iff_lt_or_eq.mp hlt with hlt | rfl
    · rw [Function.update_of_ne (slot_ne hlt (by omega)), h.holds k hle hlt]
    · rw [Function.update_self, hx]

theorem front_value (hlt : front < back) : stream[front]? = some (slots (front % size)) := h.holds front le_rfl hlt

theorem pop (hlt : front < back) : Window size slots stream (front + 1) back where
  le := hlt
  fits := by
    have := h.fits
    omega
  within := h.within
  holds k hle hlt := h.holds k (Nat.le_of_succ_le hle) hlt

theorem take_succ (hlt : front < back) : stream.take (front + 1) = stream.take front ++ [slots (front % size)] := by
  rw [List.take_add_one, h.front_value hlt, Option.toList_some]

/-- A window up to the end of the stream is what is left of it. -/
theorem contents (hback : back = stream.length) :
    stream = stream.take front ++ (List.range (back - front)).map fun k => slots ((front + k) % size) := by
  conv_lhs => rw [← List.take_append_drop front stream]
  congr 1
  refine List.ext_getElem? fun k => ?_
  rw [List.getElem?_drop, List.getElem?_map]
  by_cases hk : front + k < back
  · rw [h.holds (front + k) (Nat.le_add_right _ _) hk, List.getElem?_range (by omega), Option.map_some]
  · rw [List.getElem?_eq_none (by omega), List.getElem?_eq_none (by rw [List.length_range]; omega), Option.map_none]

end Window

end

end Slots
