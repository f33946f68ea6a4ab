import Mathlib.Data.List.Basic
import Mathlib.Data.Int.Basic
import Mathlib.Tactic.Linarith

/-! # Records on the wire

A record is a list of fields. A fixed field is written whole or not at all; a text field of a given size
is written in any pieces, from a source of `len` values (if there is one) and then from its padding.
`Step q fs bs fs'` is one attempt to write the head of `fs` into a buffer with room `q`. Whatever the
rooms are, the values written so far followed by the values of the fields that are left are the values
of the whole record (`Step.flat`). -/

namespace Fields

/-- Where the values of a text field come from: the values from an address on. -/
abbrev Source (α : Type) := ℤ → α

/-- The source `n` values further on. -/
def Source.incr {α : Type} (p : Source α) (n : ℤ) : Source α := fun i => p (i + n)

inductive Item (α : Type)
  | fixed (bs : List α)
  | text (src : Option (Source α)) (len : ℤ) (pad : α) (size : ℤ)

section
variable {α : Type}

/-- The next `k` values of a text field that does not run out of its source before. -/
def piece (src : Option (Source α)) (pad : α) (k : ℕ) : List α :=
  (List.range k).map fun i : ℕ => match src with
    | some p => p i
    | none => pad

def text (src : Option (Source α)) (len : ℤ) (pad : α) (n : ℕ) : List α :=
  (List.range n).map fun i : ℕ => match src with
    | some p => if (i : ℤ) < len then p i else pad
    | none => pad

def Item.flat : Item α → List α
  | .fixed bs => bs
  | .text src len pad size => Fields.text src len pad size.toNat

def flat (fs : List (Item α)) : List α := fs.flatMap Item.flat

def Item.null : Item α → Item α
  | .fixed bs => .fixed bs
  | .text src len pad size => .text (if len = 0 then none else src) len pad size

/-- How many values a text field may write into room `q`: no more than its source has. -/
def clip (src : Option (Source α)) (len q : ℤ) : ℤ := if src.isSome then min q len else q

/-- The length of a source after `k` values were taken from it. -/
def rest (src : Option (Source α)) (len k : ℤ) : ℤ := if src.isSome then len - k else len

@[simp] theorem flat_nil : flat ([] : List (Item α)) = [] := rfl

@[simp] theorem flat_cons (f : Item α) (fs : List (Item α)) : flat (f :: fs) = f.flat ++ flat fs := rfl

@[simp] theorem length_piece (src : Option (Source α)) (pad : α) (k : ℕ) : (piece src pad k).length = k := by
  simp [piece]

@[simp] theorem length_text (src : Option (Source α)) (len : ℤ) (pad : α) (n : ℕ) :
    (text src len pad n).length = n := by
  simp [text]

@[simp] theorem Source.incr_zero (p : Source α) : p.incr 0 = p := by
  funext i
  simp [Source.incr]

@[simp] theorem rest_zero (src : Option (Source α)) (len : ℤ) : rest src len 0 = len := by
  simp [rest]

@[simp] theorem piece_zero (src : Option (Source α)) (pad : α) : piece src pad 0 = [] := rfl

theorem clip_le (src : Option (Source α)) (len q : ℤ) : clip src len q ≤ q := by
  unfold clip
  split
  · exact min_le_left _ _
  · exact le_rfl

theorem clip_nonneg {src : Option (Source α)} {len q : ℤ} (hq : 0 ≤ q) (hlen : src.isSome → 0 ≤ len) :
    0 ≤ clip src len q := by
  unfold clip
  split
  · exact le_min hq (hlen ‹_›)
  · exact hq

theorem rest_nonneg {src : Option (Source α)} {f : Source α → Source α} {len k : ℤ} (hk : src.isSome → k ≤ len)
    (h : (src.map f).isSome) : 0 ≤ rest src len k := by
  have h : src.isSome := by simpa using h
  rw [rest, if_pos h]
  exact Int.sub_nonneg_of_le (hk h)

theorem clip_le_len {src : Option (Source α)} {len q : ℤ} (h : src.isSome) : clip src len q ≤ len := by
  rw [clip, if_pos h]
  exact min_le_right _ _

/-- A text field is its next piece and the same field further on in its source. -/
theorem text_eq_piece_append {src : Option (Source α)} {len : ℤ} {pad : α} {k n : ℕ} (hk : k ≤ n)
    (hlen : src.isSome → (k : ℤ) ≤ len) :
    text src len pad n = piece src pad k ++ text (src.map (·.incr k)) (rest src len k) pad (n - k) := by
  obtain ⟨m, rfl⟩ := Nat.exists_eq_add_of_le hk
  rw [Nat.add_sub_cancel_left]
  unfold text piece
  rw [List.range_add, List.map_append, List.map_map]
  congr 1
  · refine List.map_congr_left fun i hi => ?_
    cases src with
    | none => rfl
    | some p =>
      have : (i : ℤ) < len := by
        have := hlen rfl
        have := List.mem_range.mp hi
        omega
      simp [this]
  · refine List.map_congr_left fun i _ => ?_
    cases src with
    | none => rfl
    | some p =>
      have : ((k + i : ℕ) : ℤ) < len ↔ (i : ℤ) < len - k := by
        push_cast
        omega
      simp only [Function.comp_apply, Option.map_some, rest, Option.isSome_some, if_true, this, Source.incr]
      push_cast
      rw [add_comm (k : ℤ)]

/-- Without its exhausted source a text field has the same values. -/
theorem text_exhausted {src : Option (Source α)} {len len' : ℤ} {pad : α} {n : ℕ} (h : len ≤ 0) :
    text src len pad n = text none len' pad n := by
  unfold text
  refine List.map_congr_left fun i _ => ?_
  cases src with
  | none => rfl
  | some p =>
    have : ¬(i : ℤ) < len := by omega
    simp [this]

/-- A source that is shorter than its field is followed by padding. -/
theorem text_eq_piece_replicate (p : Source α) (pad : α) {k n : ℕ} (hk : k ≤ n) :
    text (some p) k pad n = piece (some p) pad k ++ List.replicate (n - k) pad := by
  have hpad : text (some (p.incr k)) (rest (some p) k k) pad (n - k) = text none 0 pad (n - k) :=
    text_exhausted (by simp [rest])
  have hnone : text none 0 pad (n - k) = List.replicate (n - k) pad := by simp [text]
  rw [text_eq_piece_append hk fun _ => le_rfl, Option.map_some, hpad, hnone]

@[simp] theorem flat_map_null (fs : List (Item α)) : flat (fs.map Item.null) = flat fs := by
  induction fs with
  | nil => rfl
  | cons f fs ih =>
    rw [List.map_cons, flat_cons, flat_cons, ih]
    congr 1
    cases f with
    | fixed bs => rfl
    | text src len pad size =>
      simp only [Item.null, Item.flat]
      split
      · exact (text_exhausted (le_of_eq ‹len = 0›)).symm
      · rfl

/-- One attempt to write the head of a record into room `q`: the values written, and the fields left. -/
inductive Step (q : ℤ) : List (Item α) → List α → List (Item α) → Prop
  | whole {bs fs} : (bs.length : ℤ) ≤ q → Step q (.fixed bs :: fs) bs fs
  | short {bs fs} : q < bs.length → Step q (.fixed bs :: fs) [] (.fixed bs :: fs)
  | part {src len pad size fs} {k : ℕ} : (k : ℤ) = clip src len q → (k : ℤ) < size →
      Step q (.text src len pad size :: fs) (piece src pad k)
        (.text (src.map (·.incr k)) (rest src len k) pad (size - k) :: fs)
  | last {src len pad size fs} {k : ℕ} : (k : ℤ) = size → size ≤ clip src len q →
      Step q (.text src len pad size :: fs) (piece src pad k) fs

namespace Step
variable {q : ℤ} {fs fs' : List (Item α)} {bs : List α}

theorem flat (h : Step q fs bs fs') : flat fs = bs ++ flat fs' := by
  cases h with
  | whole _ => rfl
  | short _ => rfl
  | @part src len pad size fs k hk hlt =>
    have hsize : (size - (k : ℤ)).toNat = size.toNat - k := by omega
    rw [flat_cons, flat_cons, ← List.append_assoc, Item.flat, Item.flat, hsize,
      text_eq_piece_append (by omega : k ≤ size.toNat) fun h => hk ▸ clip_le_len h]
  | @last src len pad size fs k hk hle =>
    have hsize : size.toNat = k := by omega
    rw [flat_cons, Item.flat, hsize, text_eq_piece_append le_rfl fun h => hk ▸ hle.trans (clip_le_len h)]
    simp [text]

theorem fits (h : Step q fs bs fs') (hq : 0 ≤ q) : (bs.length : ℤ) ≤ q := by
  cases h with
  | whole h => exact h
  | short _ => exact hq
  | part hk _ =>
    rw [length_piece, hk]
    exact clip_le _ _ _
  | last hk hle =>
    rw [length_piece, hk]
    exact hle.trans (clip_le _ _ _)

/-- A step that writes nothing stands at a fixed field that does not fit, or at a text field without
    room or with an exhausted source. -/
theorem nil_cases (h : Step q fs [] fs') :
    (∃ bs gs, fs = .fixed bs :: gs ∧ (bs = [] ∨ q < bs.length)) ∨
      ∃ src len pad size gs, fs = .text src len pad size :: gs ∧ (size ≤ 0 ∨ clip src len q = 0) := by
  obtain ⟨bs, hbs⟩ : ∃ bs, bs = ([] : List α) := ⟨_, rfl⟩
  rw [← hbs] at h
  cases h with
  | whole _ => exact Or.inl ⟨_, _, rfl, Or.inl hbs⟩
  | @short bs gs hlt => exact Or.inl ⟨bs, gs, rfl, Or.inr hlt⟩
  | @part src len pad size gs k hk hlt =>
    obtain rfl : k = 0 := by simpa using congrArg List.length hbs
    exact Or.inr ⟨src, len, pad, size, gs, rfl, Or.inr hk.symm⟩
  | @last src len pad size gs k hk hle =>
    obtain rfl : k = 0 := by simpa using congrArg List.length hbs
    exact Or.inr ⟨src, len, pad, size, fs', rfl, Or.inl (by omega)⟩

end Step

end

end Fields
