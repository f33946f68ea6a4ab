import Mathlib.Data.List.Basic
import Mathlib.Logic.Equiv.Basic

/-! # Formats

A format writes a value as a list of letters, and reads a value off the front of a list. It carries its two laws: what was
written is read again, whatever follows, and nothing is read but what was written. The formats below are closed under
what records are made of. A stream of values is read by `Format.all`: as long as the front of the list can be read. -/

namespace Formats

structure Format (α β : Type) where
  write : β → List α
  read : List α → Option (β × List α)
  read_write (b : β) (l : List α) : read (write b ++ l) = some (b, l)
  write_read {l l' : List α} {b : β} : read l = some (b, l') → l = write b ++ l'

namespace Format
variable {α β γ : Type}

/-! ### Formats of records -/

/-- A single letter. -/
def letter : Format α α where
  write a := [a]
  read l := l.head?.map fun a => (a, l.tail)
  read_write _ _ := rfl
  write_read {l l' a} h := by
    cases l with
    | nil => cases h
    | cons b l =>
      cases h
      rfl

/-- One after the other. -/
def seq (f : Format α β) (g : Format α γ) : Format α (β × γ) where
  write x := f.write x.1 ++ g.write x.2
  read l := do
    let (b, l) ← f.read l
    let (c, l) ← g.read l
    some ((b, c), l)
  read_write x l := by
    simp only [List.append_assoc, f.read_write, g.read_write, Option.bind_eq_bind, Option.bind_some]
  write_read {l l' x} h := by
    simp only [Option.bind_eq_bind, Option.bind_eq_some_iff, Option.some.injEq, Prod.mk.injEq] at h
    obtain ⟨⟨b, l₁⟩, hb, ⟨c, l₂⟩, hc, rfl, rfl⟩ := h
    have hl₁ : l₁ = g.write c ++ l₂ := g.write_read hc
    rw [f.write_read hb, hl₁, List.append_assoc]

/-- The same letters for other values. -/
def map (f : Format α β) (e : β ≃ γ) : Format α γ where
  write c := f.write (e.symm c)
  read l := (f.read l).map fun x => (e x.1, x.2)
  read_write c l := by rw [f.read_write, Option.map_some, Equiv.apply_symm_apply]
  write_read {l l' c} h := by
    obtain ⟨⟨b, l₁⟩, hb, hx⟩ := Option.map_eq_some_iff.mp h
    obtain ⟨rfl, rfl⟩ := Prod.mk.inj hx
    rw [f.write_read hb, Equiv.symm_apply_apply]

/-- A list of `n` letters. -/
def exactly (n : ℕ) : Format α { l : List α // l.length = n } where
  write l := l.val
  read l := if h : n ≤ l.length then some (⟨l.take n, List.length_take_of_le h⟩, l.drop n) else none
  read_write b l := by
    obtain ⟨b, rfl⟩ := b
    rw [dif_pos (by rw [List.length_append]; exact Nat.le_add_right _ _)]
    simp only [List.take_left', List.drop_left']
  write_read {l l' b} h := by
    split at h
    · cases h
      exact (List.take_append_drop n l).symm
    · cases h

/-- A value that is there where `p` holds. -/
abbrev Given (p : Prop) (β : Type) := { o : Option β // o.isSome = true ↔ p }

/-- The value, where `p` holds. -/
def give (p : Prop) [Decidable p] (b : β) : Given p β := ⟨if p then some b else none, by split <;> simp [*]⟩

def given (p : Prop) [Decidable p] (f : Format α β) : Format α (Given p β) where
  write o := o.val.elim [] f.write
  read l :=
    if h : p then (f.read l).map fun x => (⟨some x.1, iff_of_true rfl h⟩, x.2)
    else some (⟨none, iff_of_false Bool.false_ne_true h⟩, l)
  read_write o l := by
    obtain ⟨o, ho⟩ := o
    cases o with
    | none =>
      rw [dif_neg fun h => Bool.false_ne_true (ho.mpr h)]
      rfl
    | some b =>
      rw [dif_pos (ho.mp rfl)]
      show (f.read (f.write b ++ l)).map _ = _
      rw [f.read_write, Option.map_some]
  write_read {l l' o} h := by
    split at h
    · obtain ⟨⟨b, l₁⟩, hb, hx⟩ := Option.map_eq_some_iff.mp h
      obtain ⟨rfl, rfl⟩ := Prod.mk.inj hx
      exact f.write_read hb
    · cases h
      rfl

/-- No letters. -/
def nothing : Format α Unit where
  write _ := []
  read l := some ((), l)
  read_write _ _ := rfl
  write_read {l l' u} h := by
    cases h
    rfl

/-- No values. -/
def void : Format α Empty where
  write := Empty.elim
  read _ := none
  read_write e := e.elim
  write_read h := by cases h

/-- The values with the property `p`. -/
def refine (f : Format α β) (p : β → Prop) [DecidablePred p] : Format α { b : β // p b } where
  write b := f.write b.val
  read l := (f.read l).bind fun x => if h : p x.1 then some (⟨x.1, h⟩, x.2) else none
  read_write b l := by rw [f.read_write, Option.bind_some, dif_pos b.property]
  write_read {l l' b} h := by
    obtain ⟨⟨b', l₁⟩, hb, hx⟩ := Option.bind_eq_some_iff.mp h
    split at hx
    · cases hx
      exact f.write_read hb
    · cases hx

/-- What follows a first value depends on it. -/
def dep {γ : β → Type} (f : Format α β) (g : ∀ b, Format α (γ b)) : Format α (Σ b, γ b) where
  write x := f.write x.1 ++ (g x.1).write x.2
  read l := (f.read l).bind fun x => ((g x.1).read x.2).map fun y => (⟨x.1, y.1⟩, y.2)
  read_write x l := by
    rw [List.append_assoc, f.read_write, Option.bind_some, (g x.1).read_write]
    rfl
  write_read {l l' x} h := by
    obtain ⟨⟨b, l₁⟩, hb, hx⟩ := Option.bind_eq_some_iff.mp h
    obtain ⟨⟨c, l₂⟩, hc, hx⟩ := Option.map_eq_some_iff.mp hx
    obtain ⟨rfl, rfl⟩ := Prod.mk.inj hx
    have hl₁ : l₁ = (g b).write c ++ l₂ := (g b).write_read hc
    rw [f.write_read hb, hl₁, List.append_assoc]

/-- The first letter of a value tells which of two formats it has. -/
def either (p : α → Prop) [DecidablePred p] (f : Format α β) (g : Format α γ) (hf : ∀ b, ∃ a ∈ (f.write b).head?, p a)
    (hg : ∀ c, ∃ a ∈ (g.write c).head?, ¬p a) : Format α (β ⊕ γ) where
  write := Sum.elim f.write g.write
  read l := l.head?.bind fun a =>
    if p a then (f.read l).map fun x => (.inl x.1, x.2) else (g.read l).map fun x => (.inr x.1, x.2)
  read_write x l := by
    have hhead : ∀ {l' : List α} {a}, a ∈ l'.head? → (l' ++ l).head? = some a := by
      intro l' a ha
      rw [List.head?_append, Option.mem_def.mp ha]
      rfl
    cases x with
    | inl b =>
      obtain ⟨a, ha, hp⟩ := hf b
      rw [Sum.elim_inl, hhead ha, Option.bind_some, if_pos hp, f.read_write, Option.map_some]
    | inr c =>
      obtain ⟨a, ha, hp⟩ := hg c
      rw [Sum.elim_inr, hhead ha, Option.bind_some, if_neg hp, g.read_write, Option.map_some]
  write_read {l l' x} h := by
    obtain ⟨a, -, hx⟩ := Option.bind_eq_some_iff.mp h
    split at hx
    · obtain ⟨⟨b, l₁⟩, hb, hx⟩ := Option.map_eq_some_iff.mp hx
      obtain ⟨rfl, rfl⟩ := Prod.mk.inj hx
      exact f.write_read hb
    · obtain ⟨⟨c, l₁⟩, hc, hx⟩ := Option.map_eq_some_iff.mp hx
      obtain ⟨rfl, rfl⟩ := Prod.mk.inj hx
      exact g.write_read hc

section Tagged
variable {ι : Type} {γ : ι → Type} [DecidableEq α] (tag : ι → α) (kind : α → ι) (hkind : ∀ i, γ i → kind (tag i) = i)
  (f : ∀ i, Format α (γ i))

/-- The first letter tells the kind of a value. -/
def tagged : Format α (Σ i, γ i) where
  write x := tag x.1 :: (f x.1).write x.2
  read
    | [] => none
    | a :: l => if tag (kind a) = a then ((f (kind a)).read l).map fun x => (⟨kind a, x.1⟩, x.2) else none
  read_write x l := by
    obtain ⟨i, c⟩ := x
    have hsame : ∀ j, j = i → ((f j).read ((f i).write c ++ l)).map (fun x => ((⟨j, x.1⟩ : Σ i, γ i), x.2)) = some (⟨i, c⟩, l) := by
      rintro j rfl
      rw [(f j).read_write, Option.map_some]
    have hi := hkind i c
    simp only [List.cons_append]
    rw [if_pos (congrArg tag hi), hsame _ hi]
  write_read {l l' x} h := by
    cases l with
    | nil => cases h
    | cons a l =>
      simp only [Option.ite_none_right_eq_some, Option.map_eq_some_iff] at h
      obtain ⟨htag, ⟨c, l₁⟩, hc, hx⟩ := h
      obtain ⟨rfl, rfl⟩ := Prod.mk.inj hx
      rw [List.cons_append, htag, (f (kind a)).write_read hc]

end Tagged

/-! ### Streams -/

section Streams
variable (f : Format α β)

/-- Every value has a letter. -/
def Proper : Prop := ∀ b, f.write b ≠ []

/-- At most `n` values off the front, and what is left. -/
def upTo : ℕ → List α → List β × List α
  | 0, l => ([], l)
  | n + 1, l => (f.read l).elim ([], l) fun x => (x.1 :: (upTo n x.2).1, (upTo n x.2).2)

/-- The values off the front, up to where nothing can be read, and what is left. -/
def all (l : List α) : List β × List α := f.upTo l.length l

theorem upTo_write (n : ℕ) (l : List α) : l = (f.upTo n l).1.flatMap f.write ++ (f.upTo n l).2 := by
  induction n generalizing l with
  | zero => rfl
  | succ n ih =>
    rw [upTo]
    cases hr : f.read l with
    | none => rfl
    | some x =>
      rw [Option.elim_some, List.flatMap_cons, List.append_assoc, ← ih x.2]
      exact f.write_read hr

/-- What was read is what stands there. -/
theorem all_write (l : List α) : l = (f.all l).1.flatMap f.write ++ (f.all l).2 := f.upTo_write _ l

variable {f} (hf : f.Proper)
include hf

theorem Proper.read_length {l : List α} {x : β × List α} (h : f.read l = some x) : x.2.length < l.length := by
  have hlen := congrArg List.length (f.write_read h)
  have hpos := List.length_pos_iff.mpr (hf x.1)
  rw [List.length_append] at hlen
  omega

theorem Proper.upTo_stuck {n : ℕ} {l : List α} (hn : l.length ≤ n) : f.read (f.upTo n l).2 = none := by
  induction n generalizing l with
  | zero =>
    rw [upTo]
    cases hr : f.read l with
    | none => rfl
    | some x =>
      have := hf.read_length hr
      omega
  | succ n ih =>
    rw [upTo]
    cases hr : f.read l with
    | none => exact hr
    | some x =>
      have := hf.read_length hr
      exact ih (by omega)

/-- Nothing can be read off what is left. -/
theorem Proper.all_stuck (l : List α) : f.read (f.all l).2 = none := hf.upTo_stuck (Nat.le_refl _)

theorem Proper.upTo_more {n m : ℕ} {l : List α} (hn : l.length ≤ n) (hm : l.length ≤ m) : f.upTo n l = f.upTo m l := by
  induction n generalizing l m with
  | zero =>
    cases m with
    | zero => rfl
    | succ m =>
      rw [upTo, upTo]
      cases hr : f.read l with
      | none => rfl
      | some x =>
        have := hf.read_length hr
        omega
  | succ n ih =>
    cases m with
    | zero =>
      rw [upTo, upTo]
      cases hr : f.read l with
      | none => rfl
      | some x =>
        have := hf.read_length hr
        omega
    | succ m =>
      rw [upTo, upTo]
      cases hr : f.read l with
      | none => rfl
      | some x =>
        have := hf.read_length hr
        rw [Option.elim_some, Option.elim_some, ih (l := x.2) (m := m) (by omega) (by omega)]

theorem Proper.all_cons (b : β) (l : List α) : f.all (f.write b ++ l) = (b :: (f.all l).1, (f.all l).2) := by
  have hpos := List.length_pos_iff.mpr (hf b)
  obtain ⟨n, hn⟩ := Nat.exists_eq_add_of_lt hpos
  have hlen : (f.write b ++ l).length = (n + l.length) + 1 := by
    rw [List.length_append]
    omega
  have hmore : f.upTo (n + l.length) l = f.all l := hf.upTo_more (by omega) (Nat.le_refl _)
  rw [all, hlen, upTo, f.read_write, Option.elim_some, hmore]

theorem Proper.all_append (bs : List β) (l : List α) :
    f.all (bs.flatMap f.write ++ l) = (bs ++ (f.all l).1, (f.all l).2) := by
  induction bs with
  | nil => rfl
  | cons b bs ih => rw [List.flatMap_cons, List.append_assoc, hf.all_cons, ih, List.cons_append]

/-- A stream is read as the values that it was written from. -/
theorem Proper.all_flatMap (bs : List β) : f.all (bs.flatMap f.write) = (bs, []) := by
  have h := hf.all_append bs []
  have hnil : f.all [] = ([], []) := rfl
  rwa [List.append_nil, hnil, List.append_nil] at h

end Streams

end Format

end Formats
