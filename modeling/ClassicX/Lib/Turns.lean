import Mathlib.Data.List.Basic
import Mathlib.Data.Int.Basic
import Mathlib.Tactic.Linarith

/-! # Writing in turns

A writer fills a buffer in turns. A turn is told the room that is left and answers with the values it
stored from the current offset on and with a count, and the loop moves the offset by that count and
takes it from the room. Nothing here forces the count to be the number of values stored: a turn that
answers with a negative count moves the offset back. `doWhile_spec` is the rule for turns that count
what they store. -/

namespace Turns

/-- Values stored one after another from offset `n` on. -/
def storesAt {α : Type} (n : ℤ) : List α → List (ℤ × α)
  | [] => []
  | b :: bs => (n, b) :: storesAt (n + 1) bs

/-- What a turn leaves behind: the next state, the room as the turn left it, its count, and the values
    it stored from the current offset on. -/
structure Turn (σ α : Type) where
  next : σ
  room : ℤ
  ret : ℤ
  bytes : List α

/-- What a loop leaves behind: the last state, the sum of the counts, and every store by its offset. -/
structure Done (σ α : Type) where
  next : σ
  ret : ℤ
  stores : List (ℤ × α)

/-- `do turn while (ret && room && more)`, from offset `n` on. The offset is also the sum of the counts.
    A loop that takes more than `k` turns is stopped without a result. -/
def doWhile {σ α : Type} (turn : σ → ℤ → Option (Turn σ α)) (more : σ → Bool) :
    ℕ → ℤ → σ → ℤ → Option (Done σ α)
  | 0, _, _, _ => none
  | k + 1, n, s, q => do
    let t ← turn s q
    if t.ret ≠ 0 ∧ t.room - t.ret ≠ 0 ∧ more t.next then
      let d ← doWhile turn more k (n + t.ret) t.next (t.room - t.ret)
      some { d with stores := storesAt n t.bytes ++ d.stores }
    else
      some ⟨t.next, n + t.ret, storesAt n t.bytes⟩

/-- The states in which such a loop takes its turns, each with the room it has there. -/
def visits {σ α : Type} (turn : σ → ℤ → Option (Turn σ α)) (more : σ → Bool) : ℕ → σ → ℤ → List (σ × ℤ)
  | 0, _, _ => []
  | k + 1, s, q =>
    (s, q) :: (turn s q).elim [] fun t =>
      if t.ret ≠ 0 ∧ t.room - t.ret ≠ 0 ∧ more t.next then visits turn more k t.next (t.room - t.ret) else []

section Stores
variable {α : Type}

@[simp] theorem storesAt_nil (n : ℤ) : storesAt n ([] : List α) = [] := rfl

theorem storesAt_append (n : ℤ) (a b : List α) :
    storesAt n (a ++ b) = storesAt n a ++ storesAt (n + a.length) b := by
  induction a generalizing n with
  | nil => simp
  | cons x a ih =>
    simp only [List.cons_append, storesAt, ih, List.length_cons, Nat.cast_add, Nat.cast_one]
    rw [add_assoc, add_comm 1 (a.length : ℤ)]

@[simp] theorem map_snd_storesAt (n : ℤ) (bs : List α) : (storesAt n bs).map Prod.snd = bs := by
  induction bs generalizing n with
  | nil => rfl
  | cons b bs ih => simp [storesAt, ih]

theorem map_add_storesAt (n m : ℤ) (bs : List α) :
    (storesAt m bs).map (fun st => (n + st.1, st.2)) = storesAt (n + m) bs := by
  induction bs generalizing m with
  | nil => rfl
  | cons b bs ih => rw [storesAt, List.map_cons, ih, storesAt, add_assoc]

theorem mem_storesAt {n i : ℤ} {b : α} {bs : List α} (h : (i, b) ∈ storesAt n bs) :
    n ≤ i ∧ i < n + bs.length := by
  induction bs generalizing n with
  | nil => cases h
  | cons x bs ih =>
    rcases List.mem_cons.mp h with h | h
    · obtain ⟨rfl, rfl⟩ := Prod.mk.inj h
      simp only [List.length_cons, Nat.cast_add, Nat.cast_one]
      omega
    · have := ih h
      simp only [List.length_cons, Nat.cast_add, Nat.cast_one]
      omega

theorem exists_mem_storesAt (n : ℤ) (bs : List α) {i : ℕ} (h : i < bs.length) : ∃ b, (n + i, b) ∈ storesAt n bs := by
  induction bs generalizing n i with
  | nil => cases h
  | cons b bs ih =>
    cases i with
    | zero => exact ⟨b, by simp [storesAt]⟩
    | succ i =>
      obtain ⟨c, hc⟩ := ih (n + 1) (Nat.lt_of_succ_lt_succ h)
      refine ⟨c, List.mem_cons_of_mem _ ?_⟩
      have hi : n + (i + 1 : ℕ) = n + 1 + i := by push_cast; omega
      rw [hi]
      exact hc

end Stores

section Rules
variable {σ α : Type} {turn : σ → ℤ → Option (Turn σ α)} {more : σ → Bool}

/-- A turn that counts what it stores, stays inside the room, takes its values off the front of what is
    left to write, and leads to a state in which the loop may take its next turn. -/
structure Good (more : σ → Bool) (left : σ → List α) (Inv : σ → ℤ → Prop) (Post : σ → Prop) (s : σ) (q : ℤ)
    (t : Turn σ α) : Prop where
  count : t.ret = t.bytes.length
  fits : t.ret ≤ t.room
  room : t.room ≤ q
  left : left s = t.bytes ++ left t.next
  post : Post t.next
  inv : t.ret ≠ 0 → t.room - t.ret ≠ 0 → more t.next = true → Inv t.next (t.room - t.ret)

theorem doWhile_more {k : ℕ} {n q : ℤ} {s : σ} {t : Turn σ α} (ht : turn s q = some t) (hret : t.ret ≠ 0)
    (hroom : t.room - t.ret ≠ 0) (hmore : more t.next = true) :
    doWhile turn more (k + 1) n s q = (doWhile turn more k (n + t.ret) t.next (t.room - t.ret)).map
      fun d => { d with stores := storesAt n t.bytes ++ d.stores } := by
  simp only [doWhile, ht, Option.bind_eq_bind, Option.bind_some, if_pos (⟨hret, hroom, hmore⟩ : _ ∧ _ ∧ _)]
  cases doWhile turn more k (n + t.ret) t.next (t.room - t.ret) <;> rfl

theorem doWhile_last {k : ℕ} {n q : ℤ} {s : σ} {t : Turn σ α} (ht : turn s q = some t)
    (hstop : t.ret = 0 ∨ t.room - t.ret = 0 ∨ more t.next = false) :
    doWhile turn more (k + 1) n s q = some ⟨t.next, n + t.ret, storesAt n t.bytes⟩ := by
  have : ¬(t.ret ≠ 0 ∧ t.room - t.ret ≠ 0 ∧ more t.next = true) := by
    rintro ⟨h₁, h₂, h₃⟩
    rcases hstop with h | h | h
    · exact h₁ h
    · exact h₂ h
    · rw [h₃] at h
      cases h
  simp only [doWhile, ht, Option.bind_eq_bind, Option.bind_some, if_neg this]

/-- A loop is told by its first turn. -/
theorem doWhile_congr {k : ℕ} {n q : ℤ} {s s' : σ} (h : turn s q = turn s' q) :
    doWhile turn more (k + 1) n s q = doWhile turn more (k + 1) n s' q := by
  simp only [doWhile, h]

theorem doWhile_none {k : ℕ} {n q : ℤ} {s : σ} (ht : turn s q = none) : doWhile turn more (k + 1) n s q = none := by
  simp only [doWhile, ht, Option.bind_eq_bind, Option.bind_none]

theorem doWhile_stores {k : ℕ} {n q : ℤ} {s : σ} {t : Turn σ α} {d : Done σ α} (ht : turn s q = some t)
    (hd : doWhile turn more (k + 1) n s q = some d) : storesAt n t.bytes ⊆ d.stores := by
  by_cases hmore : t.ret ≠ 0 ∧ t.room - t.ret ≠ 0 ∧ more t.next = true
  · rw [doWhile_more ht hmore.1 hmore.2.1 hmore.2.2, Option.map_eq_some_iff] at hd
    obtain ⟨d', -, rfl⟩ := hd
    exact List.subset_append_left _ _
  · simp only [doWhile, ht, Option.bind_eq_bind, Option.bind_some, if_neg hmore, Option.some.injEq] at hd
    subst hd
    exact List.Subset.refl _

/-- What holds before the first turn, and what a turn keeps, holds before every turn. -/
theorem visits_inv (Inv : σ → ℤ → Prop)
    (hturn : ∀ s q t, Inv s q → turn s q = some t → more t.next = true → Inv t.next (t.room - t.ret)) {k : ℕ} {s : σ} {q : ℤ}
    (h : Inv s q) : ∀ v ∈ visits turn more k s q, Inv v.1 v.2 := by
  induction k generalizing s q with
  | zero =>
    intro v hv
    cases hv
  | succ k ih =>
    intro v hv
    rcases List.mem_cons.mp hv with rfl | hv
    · exact h
    · cases ht : turn s q with
      | none =>
        rw [ht] at hv
        cases hv
      | some t =>
        simp only [ht, Option.elim_some] at hv
        split at hv
        · exact ih (hturn s q t h ht ‹_ ∧ _ ∧ _›.2.2) v hv
        · cases hv

/-- A loop of good turns ends, counts what it stored, stays inside the room and takes its values off
    the front of what is left to write. It starts with its first turn, and stops there if that turn
    wrote nothing. -/
theorem doWhile_spec (turn : σ → ℤ → Option (Turn σ α)) (more : σ → Bool) (left : σ → List α) (Inv : σ → ℤ → Prop)
    (Post : σ → Prop)
    (hturn : ∀ s q, 0 ≤ q → Inv s q → ∃ t, turn s q = some t ∧ Good more left Inv Post s q t) :
    ∀ (k : ℕ) (n : ℤ) (s : σ) (q : ℤ), 0 ≤ q → Inv s q → (left s).length < k →
      ∃ t bs s', turn s q = some t ∧ doWhile turn more k n s q = some ⟨s', n + bs.length, storesAt n bs⟩ ∧
        (bs.length : ℤ) ≤ q ∧ left s = bs ++ left s' ∧ Post s' ∧ t.bytes <+: bs ∧
        (t.bytes = [] → s' = t.next ∧ bs = []) := by
  intro k
  -- The induction is on the number of turns allowed; what is left to write gets shorter with each.
  induction k with
  | zero => intro n s q _ _ hk; exact absurd hk (Nat.not_lt_zero _)
  | succ k ih =>
    intro n s q hq hinv hk
    obtain ⟨t, ht, g⟩ := hturn s q hq hinv
    by_cases hmore : t.ret ≠ 0 ∧ t.room - t.ret ≠ 0 ∧ more t.next = true
    · have hlt : (left t.next).length < k := by
        have := congrArg List.length g.left
        have := g.count
        rw [List.length_append] at *
        omega
      have hq' : 0 ≤ t.room - t.ret := by have := g.fits; omega
      obtain ⟨-, bs, s', -, hrun, hlen, hleft, hpost, -, -⟩ :=
        ih (n + t.ret) t.next (t.room - t.ret) hq' (g.inv hmore.1 hmore.2.1 hmore.2.2) hlt
      refine ⟨t, t.bytes ++ bs, s', ht, ?_, ?_, ?_, hpost, List.prefix_append _ _, ?_⟩
      · rw [doWhile_more ht hmore.1 hmore.2.1 hmore.2.2, hrun, storesAt_append, g.count]
        simp only [Option.map_some, List.length_append, Nat.cast_add, add_assoc]
      · have := g.fits
        have := g.room
        have := g.count
        rw [List.length_append]
        push_cast
        omega
      · rw [g.left, hleft, List.append_assoc]
      · intro h
        exact absurd (by rw [g.count, h]; rfl) hmore.1
    · refine ⟨t, t.bytes, t.next, ht, ?_, ?_, g.left, g.post, List.prefix_rfl, fun h => ⟨rfl, h⟩⟩
      · rw [doWhile_last ht (by simpa only [not_and_or, not_not, Bool.not_eq_true] using hmore), g.count]
      · have := g.fits
        have := g.room
        have := g.count
        omega

end Rules

end Turns
