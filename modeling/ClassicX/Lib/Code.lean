import Mathlib.InformationTheory.Coding.UniquelyDecodable
import Mathlib.Data.List.Basic

/-! # Words that tell their length

The first letter of a word tells how long the word is. A sequence of such words is one in a single way. -/

namespace Code
open InformationTheory

variable {α : Type}

/-- The words whose length is that of their first letter. -/
def words (len : α → Option ℕ) : Set (List α) := {w | ∃ a ∈ w.head?, len a = some w.length}

theorem words_uniquelyDecodable (len : α → Option ℕ) : UniquelyDecodable (words len) := by
  have hcons : ∀ {w : List α}, w ∈ words len → w ≠ [] := by
    rintro w ⟨a, ha, -⟩ rfl
    cases ha
  intro L₁
  induction L₁ with
  | nil =>
    intro L₂ _ h₂ heq
    cases L₂ with
    | nil => rfl
    | cons w L₂ =>
      rw [List.flatten_nil, List.flatten_cons, eq_comm, List.append_eq_nil_iff] at heq
      exact absurd heq.1 (hcons (h₂ w List.mem_cons_self))
  | cons w L₁ ih =>
    intro L₂ h₁ h₂ heq
    obtain ⟨a, ha, hlen⟩ := h₁ w List.mem_cons_self
    cases L₂ with
    | nil =>
      rw [List.flatten_nil, List.flatten_cons, List.append_eq_nil_iff] at heq
      exact absurd heq.1 (hcons (h₁ w List.mem_cons_self))
    | cons w' L₂ =>
      obtain ⟨a', ha', hlen'⟩ := h₂ w' List.mem_cons_self
      rw [List.flatten_cons, List.flatten_cons] at heq
      -- Both words start with the same letter, so that they are equally long.
      have haa : a = a' := by
        have h := congrArg List.head? heq
        rw [List.head?_append, List.head?_append, Option.mem_def.mp ha, Option.mem_def.mp ha'] at h
        exact Option.some.inj h
      have hww : w.length = w'.length := Option.some.inj (hlen.symm.trans (haa ▸ hlen'))
      obtain ⟨rfl, hrest⟩ := List.append_inj heq hww
      rw [ih L₂ (fun v hv => h₁ v (List.mem_cons_of_mem _ hv)) (fun v hv => h₂ v (List.mem_cons_of_mem _ hv)) hrest]

end Code
