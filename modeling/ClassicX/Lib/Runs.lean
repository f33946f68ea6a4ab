import Mathlib.Data.List.Basic
import Mathlib.Logic.Relation

/-! # Runs with a history

A run takes steps one after another; its history has the latest step first. What a step has to do, and
what is enough for it, may depend on the steps before it. `Run.always_iff` is the rule: where an
invariant makes the two the same at every step, every step of a run does what it has to if and only if
every step met what is enough. `Run.bounded_iff` is the one for termination, and `Run.simulates` the
one for a system that can do what another one does. -/

namespace Runs
open Relation (ReflTransGen)

variable {σ τ : Type}

/-- Steps that lead from a state to another one. -/
structure System (σ τ : Type) where
  pre : τ → σ
  post : τ → σ
  Ok : τ → Prop

/-- The runs from `s₀`. -/
inductive Run (S : System σ τ) (s₀ : σ) : List τ → σ → Prop
  | start : Run S s₀ [] s₀
  | next {h : List τ} (t : τ) : Run S s₀ h (S.pre t) → S.Ok t → Run S s₀ (t :: h) (S.post t)

/-- The steps that `next` finds for a list of actions, up to the first that cannot be taken. -/
def steps {α : Type} (S : System σ τ) (next : σ → α → Option τ) : List α → List τ → σ → List τ × σ
  | [], h, s => (h, s)
  | a :: as, h, s =>
    match next s a with
    | some t => steps S next as (t :: h) (S.post t)
    | none => (h, s)

/-- `P` holds of every step with the steps before it. -/
def Always (P : List τ → τ → Prop) : List τ → Prop
  | [] => True
  | t :: h => Always P h ∧ P h t

instance Always.decidable {P : List τ → τ → Prop} [∀ h t, Decidable (P h t)] : (h : List τ) → Decidable (Always P h)
  | [] => isTrue trivial
  | t :: h =>
    have := Always.decidable h (P := P)
    inferInstanceAs (Decidable (Always P h ∧ P h t))

/-- A step that meets `P` leads from `s` to `s'`. -/
def System.Leads (S : System σ τ) (P : τ → Prop) (s s' : σ) : Prop := ∃ t, S.pre t = s ∧ S.post t = s' ∧ S.Ok t ∧ P t

section Rules
variable {S : System σ τ} {s₀ : σ} {h : List τ} {s : σ} {P K : List τ → τ → Prop}

theorem Run.steps {α : Type} {next : σ → α → Option τ} (hnext : ∀ s a t, next s a = some t → S.pre t = s ∧ S.Ok t)
    (as : List α) (hrun : Run S s₀ h s) : Run S s₀ (steps S next as h s).1 (steps S next as h s).2 := by
  induction as generalizing h s with
  | nil => exact hrun
  | cons a as ih =>
    rw [Runs.steps]
    cases hr : next s a with
    | none => exact hrun
    | some t =>
      obtain ⟨rfl, hok⟩ := hnext s a t hr
      exact ih (.next t hrun hok)

theorem Run.inv (Inv : List τ → σ → Prop) (hrun : Run S s₀ h s) (hinit : Inv [] s₀)
    (hstep : ∀ h t, Inv h (S.pre t) → S.Ok t → Inv (t :: h) (S.post t)) : Inv h s := by
  induction hrun with
  | start => exact hinit
  | next t _ hok ih => exact hstep _ t ih hok

/-- An invariant that steps keep while they meet `K`. -/
theorem Run.inv_always (Inv : List τ → σ → Prop) (hrun : Run S s₀ h s) (hinit : Inv [] s₀)
    (hstep : ∀ h t, Inv h (S.pre t) → S.Ok t → K h t → Inv (t :: h) (S.post t)) : Always K h → Inv h s :=
  hrun.inv (fun h s => Always K h → Inv h s) (fun _ => hinit) fun h t ih hok hk => hstep h t (ih hk.1) hok hk.2

theorem Run.always_iff (Inv : List τ → σ → Prop) (hrun : Run S s₀ h s) (hinit : Inv [] s₀)
    (hstep : ∀ h t, Inv h (S.pre t) → S.Ok t → K h t → Inv (t :: h) (S.post t))
    (hiff : ∀ h t, Inv h (S.pre t) → S.Ok t → (P h t ↔ K h t)) : Always P h ↔ Always K h := by
  induction hrun with
  | start => exact Iff.rfl
  | next t hrun hok ih =>
    constructor
    · rintro ⟨hp, ht⟩
      have hk := ih.mp hp
      exact ⟨hk, (hiff _ t (hrun.inv_always Inv hinit hstep hk) hok).mp ht⟩
    · rintro ⟨hk, ht⟩
      exact ⟨ih.mpr hk, (hiff _ t (hrun.inv_always Inv hinit hstep hk) hok).mpr ht⟩

/-- Where a state has one step at most, runs of the same length lead to the same state. -/
theorem Run.det (hdet : ∀ t t', S.pre t = S.pre t' → S.Ok t → S.Ok t' → S.post t = S.post t') {h' : List τ} {s' : σ}
    (hrun : Run S s₀ h s) (hrun' : Run S s₀ h' s') (hlen : h.length = h'.length) : s = s' := by
  induction hrun generalizing h' s' with
  | start =>
    cases hrun' with
    | start => rfl
    | next t _ _ => cases hlen
  | next t _ hok ih =>
    cases hrun' with
    | start => cases hlen
    | next t' hrun' hok' => exact hdet t t' (ih hrun' (Nat.succ.inj hlen)) hok hok'

/-- Where a state has one step at most, a run to a state without a step is the longest. -/
theorem Run.longest (hdet : ∀ t t', S.pre t = S.pre t' → S.Ok t → S.Ok t' → S.post t = S.post t') {h' : List τ} {s' : σ}
    (hrun : Run S s₀ h s) (hend : ∀ t, S.pre t = s → ¬S.Ok t) (hrun' : Run S s₀ h' s') : h'.length ≤ h.length := by
  induction hrun' with
  | start => exact Nat.zero_le _
  | @next h' t hrun' hok ih =>
    rcases Nat.eq_or_lt_of_le ih with heq | hlt
    · exact absurd hok (hend t (hrun'.det hdet hrun heq))
    · exact hlt

/-- The run of a part of the system: `g` tells the step of the part, and where there is none the part stays as it is. -/
theorem Run.project {σ' τ' : Type} {S' : System σ' τ'} (f : σ → σ') (g : τ → Option τ') (hrun : Run S s₀ h s)
    (hstep : ∀ t, S.Ok t → g t = none ∧ f (S.post t) = f (S.pre t) ∨
      ∃ t', g t = some t' ∧ S'.pre t' = f (S.pre t) ∧ S'.post t' = f (S.post t) ∧ S'.Ok t') :
    Run S' (f s₀) (h.filterMap g) (f s) := by
  induction hrun with
  | start => exact .start
  | next t _ hok ih =>
    rcases hstep t hok with ⟨hnone, hsame⟩ | ⟨t', hsome, hpre, hpost, hok'⟩
    · rw [List.filterMap_cons_none hnone, hsame]
      exact ih
    · rw [List.filterMap_cons_some hsome, ← hpost]
      exact .next t' (hpre ▸ ih) hok'

/-- Before the last step, what always holds of a part's steps did. -/
theorem Always.before {τ' : Type} {P : List τ' → τ' → Prop} {g : τ → Option τ'} {t : τ}
    (hall : Always P ((t :: h).filterMap g)) : Always P (h.filterMap g) := by
  cases hg : g t with
  | none => rwa [List.filterMap_cons_none hg] at hall
  | some t' =>
    rw [List.filterMap_cons_some hg] at hall
    exact hall.1

/-- What holds always, where every step meets `Q`. -/
theorem Always.of_all {Q : τ → Prop} (hall : ∀ t ∈ h, Q t) (hP : ∀ h t, (∀ u ∈ h, Q u) → Q t → P h t) : Always P h := by
  induction h with
  | nil => trivial
  | cons t h ih =>
    have hbefore : ∀ u ∈ h, Q u := fun u hu => hall u (List.mem_cons_of_mem t hu)
    exact ⟨ih hbefore, hP h t hbefore (hall t List.mem_cons_self)⟩

theorem Run.leads {Q : τ → Prop} {s' : σ} (hrun : Run S s₀ h s) (hall : ∀ t ∈ h, Q t)
    (hleads : ReflTransGen (S.Leads Q) s s') : ∃ h', Run S s₀ h' s' ∧ ∀ t ∈ h', Q t := by
  induction hleads with
  | refl => exact ⟨h, hrun, hall⟩
  | tail _ hstep ih =>
    obtain ⟨t, rfl, rfl, hok, ht⟩ := hstep
    obtain ⟨h', hrun', hall'⟩ := ih
    exact ⟨t :: h', .next t hrun' hok, List.forall_mem_cons.mpr ⟨ht, hall'⟩⟩

/-- Where the states of two systems match, and for a step of a run of the one there are steps of the other, all with `Q`, that lead
    to states that match, there is a run of the other for every run of the one. -/
theorem Run.simulates {σ' τ' : Type} {S' : System σ' τ'} {Q : τ' → Prop} {s₀' : σ'} (Matches : σ → σ' → Prop)
    (hrun : Run S s₀ h s) (hinit : Matches s₀ s₀')
    (hstep : ∀ h t s', Run S s₀ h (S.pre t) → Matches (S.pre t) s' → S.Ok t →
      ∃ s'', ReflTransGen (S'.Leads Q) s' s'' ∧ Matches (S.post t) s'') :
    ∃ h' s', Run S' s₀' h' s' ∧ (∀ t ∈ h', Q t) ∧ Matches s s' := by
  induction hrun with
  | start => exact ⟨[], s₀', .start, List.forall_mem_nil Q, hinit⟩
  | @next h t hrun hok ih =>
    obtain ⟨h', s', hrun', hall, hmatch⟩ := ih
    obtain ⟨s'', hleads, hmatch'⟩ := hstep h t s' hrun hmatch hok
    obtain ⟨h'', hrun'', hall'⟩ := hrun'.leads hall hleads
    exact ⟨h'', s'', hrun'', hall', hmatch'⟩

/-- From a state where a step can be taken that leads to such a state again, a run goes on forever. -/
theorem Run.endless {Q : σ → Prop} (hrun : Run S s₀ h s) (hs : Q s)
    (hgoes : ∀ s, Q s → ∃ t, S.pre t = s ∧ S.Ok t ∧ Q (S.post t)) (n : ℕ) :
    ∃ h' s', Run S s₀ h' s' ∧ n < h'.length ∧ Q s' := by
  induction n with
  | zero =>
    obtain ⟨t, rfl, hok, ht⟩ := hgoes s hs
    exact ⟨t :: h, _, .next t hrun hok, Nat.succ_pos _, ht⟩
  | succ n ih =>
    obtain ⟨h', s', hrun', hlen, hs'⟩ := ih
    obtain ⟨t, rfl, hok, ht⟩ := hgoes s' hs'
    exact ⟨t :: h', _, .next t hrun' hok, Nat.succ_lt_succ hlen, ht⟩

/-- Runs have a bound exactly where every step meets `K`, which makes a step lower the measure `μ`, and without which a
    run goes on forever from before or from after the step. -/
theorem Run.bounded_iff (Inv : List τ → σ → Prop) (μ : σ → ℕ) (Q : σ → Prop) (hinit : Inv [] s₀)
    (hstep : ∀ h t, Inv h (S.pre t) → S.Ok t → K h t → Inv (t :: h) (S.post t))
    (hless : ∀ h t, Inv h (S.pre t) → S.Ok t → K h t → μ (S.post t) < μ (S.pre t))
    (hbad : ∀ h t, Inv h (S.pre t) → S.Ok t → ¬K h t → Q (S.pre t) ∨ Q (S.post t))
    (hgoes : ∀ s, Q s → ∃ t, S.pre t = s ∧ S.Ok t ∧ Q (S.post t)) :
    (∃ n, ∀ h s, Run S s₀ h s → h.length ≤ n) ↔ ∀ h s, Run S s₀ h s → Always K h := by
  constructor
  · rintro ⟨n, hn⟩ h s hrun
    have hend : ∀ {h s}, Run S s₀ h s → ¬Q s := fun hrun hs => by
      obtain ⟨h', s', hrun', hlen, -⟩ := hrun.endless hs hgoes n
      exact absurd (hn h' s' hrun') (by omega)
    induction hrun with
    | start => trivial
    | next t hrun hok ih =>
      refine ⟨ih, by_contra fun hk => ?_⟩
      exact (hbad _ t (hrun.inv_always Inv hinit hstep ih) hok hk).elim (hend hrun) (hend (.next t hrun hok))
  · intro hall
    refine ⟨μ s₀, fun h s hrun => ?_⟩
    have hsum : Inv h s ∧ h.length + μ s ≤ μ s₀ := by
      refine hrun.inv_always (fun h s => Inv h s ∧ h.length + μ s ≤ μ s₀) ⟨hinit, by simp⟩ (fun h t hi hok hk => ?_)
        (hall h s hrun)
      have hlt := hless h t hi.1 hok hk
      refine ⟨hstep h t hi.1 hok hk, ?_⟩
      have hle := hi.2
      rw [List.length_cons]
      omega
    exact Nat.le_trans (Nat.le_add_right _ _) hsum.2

end Rules

end Runs
