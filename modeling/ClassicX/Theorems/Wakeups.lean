import ClassicX.Theorems.Interrupts

/-! When the main program sleeps. It goes to sleep a statement after the test, and a handler wakes it up only if it sleeps
already: what a handler does between the two is found by the next handler, or never. -/

namespace ClassicX.Msp430
open Runs (Run Always)

/-- The main program sleeps though there is a byte to take, or room for a byte. -/
def Oversleeps (s : Chip) : Prop :=
  s.asleep = true ∧ match s.main with
    | .rest => False
    | .input _ _ _ => 0 < s.r.qty
    | .output _ _ _ => s.w.qty < 16

def Act.isRxdo : Act → Bool
  | .rxdo _ => true
  | _ => false

def Act.isTxdo : Act → Bool
  | .txdo => true
  | _ => false

/-- How many such steps there were since the last statement of the main program. -/
def since (p : Act → Bool) : List Step → ℕ
  | [] => 0
  | t :: h => if t.act = .stmt then 0 else if p t.act then since p h + 1 else since p h

/-- `LPM0` comes right after the test: no `_rxdo` between the two in `_cget`, and no `_txdo` in `_cput`. After 256 runs of
    `_rxdo` the count is what it was. -/
def Undisturbed (h : List Step) (t : Step) : Prop :=
  t.act = .stmt → match t.s.main with
    | .input _ _ .lpm0 => 256 ∣ since Act.isRxdo h
    | .output _ _ .lpm0 => since Act.isTxdo h = 0
    | _ => True

/-- Where the main program waits: at a test, or at the `LPM0` after it. -/
inductive Wait
  | none | get | getLpm0 | put | putLpm0
  deriving DecidableEq

def Main.wait : Main → Wait
  | .input _ _ .test => .get
  | .input _ _ .lpm0 => .getLpm0
  | .output _ _ .test => .put
  | .output _ _ .lpm0 => .putLpm0
  | _ => .none

/-- What is known of a state, by where the main program waits. -/
def Wakes (h : List Step) (s : Chip) : Wait → Prop
  | .none => s.asleep = false
  | .get => s.asleep = true → s.r.qty = 0
  | .getLpm0 => s.asleep = false ∧ s.r.qty.toNat = since Act.isRxdo h % 256
  | .put => s.asleep = true → s.w.qty = 16
  | .putLpm0 => s.asleep = false ∧ s.w.qty.toNat + since Act.isTxdo h = 16 ∧ (s.txie = true → s.w.qty ≠ 0)

section Steps
variable {h : List Step} {s s' : Chip} {act : Act} {x : Wait}

theorem Wakes.not_oversleeps (hs : Wakes h s s.main.wait) : ¬Oversleeps s := by
  rintro ⟨hasleep, hmiss⟩
  cases hmain : s.main with
  | rest =>
    rw [hmain] at hmiss
    exact hmiss
  | input dst qty pc =>
    rw [hmain] at hmiss hs
    have hqty : s.r.qty = 0 := by
      cases pc with
      | test => exact hs hasleep
      | lpm0 => exact absurd hasleep (Bool.eq_false_iff.mp hs.1)
      | _ => exact absurd hasleep (Bool.eq_false_iff.mp hs)
    simp [hqty] at hmiss
  | output src bytes pc =>
    rw [hmain] at hmiss hs
    have hqty : s.w.qty = 16 := by
      cases pc with
      | test => exact hs hasleep
      | lpm0 => exact absurd hasleep (Bool.eq_false_iff.mp hs.1)
      | _ => exact absurd hasleep (Bool.eq_false_iff.mp hs)
    simp [hqty] at hmiss

theorem input_wakes (dst : List UInt8) (qty : ℕ) (hawake : s.asleep = false) :
    Wakes h (input.loop s dst qty) (input.loop s dst qty).main.wait := by
  unfold input.loop
  split
  · exact hawake
  · exact fun hasleep => absurd hasleep (Bool.eq_false_iff.mp hawake)

theorem output_wakes (src : List UInt8) (hawake : s.asleep = false) :
    Wakes h (output.loop s src) (output.loop s src).main.wait := by
  cases src with
  | nil => exact hawake
  | cons src bytes => exact fun hasleep => absurd hasleep (Bool.eq_false_iff.mp hawake)

theorem cget_wakes {dst : List UInt8} {qty : ℕ} {pc : Cget} (hawake : s.asleep = false) (hs : Wakes h s (Main.input dst qty pc).wait)
    (hk : pc = .lpm0 → 256 ∣ since Act.isRxdo h) :
    Wakes (⟨s, .stmt, cget s dst qty pc⟩ :: h) (cget s dst qty pc) (cget s dst qty pc).main.wait := by
  cases pc with
  | test =>
    by_cases hqty : s.r.qty = 0
    · simp only [cget, if_pos hqty]
      refine ⟨hawake, ?_⟩
      rw [hqty]
      rfl
    · simp only [cget, if_neg hqty]
      exact hawake
  | lpm0 =>
    obtain ⟨-, hcount⟩ := hs
    rw [Nat.mod_eq_zero_of_dvd (hk rfl)] at hcount
    exact fun _ => UInt8.toNat_inj.mp hcount
  | ret cg => exact input_wakes _ _ hawake
  | _ => exact hawake

theorem cput_wakes {src : UInt8} {bytes : List UInt8} {pc : Cput} (hawake : s.asleep = false)
    (hs : Wakes h s (Main.output src bytes pc).wait) (hk : pc = .lpm0 → since Act.isTxdo h = 0) :
    Wakes (⟨s, .stmt, cput s src bytes pc⟩ :: h) (cput s src bytes pc) (cput s src bytes pc).main.wait := by
  cases pc with
  | test =>
    by_cases hqty : 16 = s.w.qty
    · simp only [cput, if_pos hqty]
      refine ⟨hawake, ?_, fun _ => ?_⟩
      · rw [← hqty]
        rfl
      · rw [← hqty]
        decide
    · simp only [cput, if_neg hqty]
      exact hawake
  | lpm0 =>
    obtain ⟨-, hcount, -⟩ := hs
    rw [hk rfl] at hcount
    exact fun _ => UInt8.toNat_inj.mp hcount
  | enable => exact output_wakes bytes hawake
  | _ => exact hawake

theorem rxdo_wakes (rxbuf : UInt8) (hs : Wakes h s x) : Wakes (⟨s, .rxdo rxbuf, rxdo s rxbuf⟩ :: h) (rxdo s rxbuf) x := by
  cases x with
  | none => rfl
  | get => nofun
  | getLpm0 =>
    have hcount : (s.r.qty + 1).toNat = (since Act.isRxdo h + 1) % 256 := by
      rw [UInt8.toNat_add, hs.2]
      simp
    exact ⟨rfl, hcount⟩
  | put => nofun
  | putLpm0 => exact ⟨rfl, hs.2⟩

theorem txdo_wakes (htxie : s.txie = true) (hs : Wakes h s x) : Wakes (⟨s, .txdo, txdo s⟩ :: h) (txdo s) x := by
  cases x with
  | none => rfl
  | get => nofun
  | getLpm0 => exact ⟨rfl, hs.2⟩
  | put => nofun
  | putLpm0 =>
    obtain ⟨-, hcount, hnonempty⟩ := hs
    have hlower := count_lower (hnonempty htxie)
    have hsum : (s.w.qty - 1).toNat + (since Act.isTxdo h + 1) = 16 := by omega
    refine ⟨rfl, hsum, fun hon hzero => ?_⟩
    simp only [txdo] at hon hzero
    rw [if_pos hzero] at hon
    cases hon

theorem idle_wakes (hs : Wakes h s x) : Wakes (⟨s, .idle, { s with free := true }⟩ :: h) { s with free := true } x := by
  cases x with
  | _ => exact hs

theorem step_wakes (hs : Wakes h s s.main.wait) (hstep : Happens s act s') (hk : Undisturbed h ⟨s, act, s'⟩) :
    Wakes (⟨s, act, s'⟩ :: h) s' s'.main.wait := by
  cases hstep with
  | input qty hmain =>
    rw [hmain] at hs
    exact input_wakes [] qty hs
  | output src hmain =>
    rw [hmain] at hs
    exact output_wakes src hs
  | cget hawake hmain =>
    rw [hmain] at hs
    refine cget_wakes hawake hs fun hpc => ?_
    have hk := hk rfl
    simp only [hmain, hpc] at hk
    exact hk
  | cput hawake hmain =>
    rw [hmain] at hs
    refine cput_wakes hawake hs fun hpc => ?_
    have hk := hk rfl
    simp only [hmain, hpc] at hk
    exact hk
  | rxdo rxbuf _ => exact rxdo_wakes rxbuf hs
  | txdo _ htxie _ => exact txdo_wakes htxie hs
  | idle => exact idle_wakes hs

/-- A main program that was disturbed before it goes to sleep oversleeps. -/
theorem undisturbed (hs : Wakes h s s.main.wait) (hstep : Happens s act s') (hp : ¬Oversleeps s') : Undisturbed h ⟨s, act, s'⟩ := by
  intro hact
  obtain rfl : act = .stmt := hact
  cases hstep with
  | @cget dst qty pc _ hmain =>
    simp only [hmain]
    rw [hmain] at hs
    cases pc with
    | lpm0 =>
      refine Nat.dvd_of_mod_eq_zero ?_
      rw [← hs.2]
      by_contra hne
      refine hp ⟨rfl, ?_⟩
      exact UInt8.lt_iff_toNat_lt.mpr (Nat.pos_of_ne_zero hne)
    | _ => trivial
  | @cput src bytes pc _ hmain =>
    simp only [hmain]
    rw [hmain] at hs
    cases pc with
    | lpm0 =>
      obtain ⟨-, hcount, -⟩ := hs
      by_contra hne
      refine hp ⟨rfl, ?_⟩
      have hlt : s.w.qty.toNat < 16 := by omega
      exact UInt8.lt_iff_toNat_lt.mpr hlt
    | _ => trivial

end Steps

/-- The main program never oversleeps exactly if it is never disturbed between the test and `LPM0`. -/
theorem wakes_iff {h : List Step} {s : Chip} (hrun : Run chip {} h s) :
    Always (fun _ t => ¬Oversleeps t.s') h ↔ Always Undisturbed h := by
  refine hrun.always_iff (fun h s => Wakes h s s.main.wait) rfl (fun h t hs hok hk => step_wakes hs (step_happens hok) hk)
    (fun h t hs hok => ?_)
  constructor
  · intro hp
    exact undisturbed hs (step_happens hok) hp
  · intro hk
    exact (step_wakes hs (step_happens hok) hk).not_oversleeps

/-- A byte that is received while the main program sleeps wakes it up. -/
theorem wakes_iff_byte : ∃ (h : List Step) (s : Chip), Run chip {} h s ∧ s.inputs = [[7]] ∧
    (Always (fun _ t => ¬Oversleeps t.s') h ↔ Always Undisturbed h) := by
  have hrun := steps_run (.input 1 :: List.replicate 2 .stmt ++ .rxdo 7 :: List.replicate 8 .stmt)
  exact ⟨_, _, hrun, by decide, wakes_iff hrun⟩

/-- A byte that is received after the test does not keep the main program from going to sleep. -/
theorem byte_overslept : ∃ (h : List Step) (s : Chip), Run chip {} h s ∧ s.received = [7] ∧ Oversleeps s := by
  have hrun := steps_run [.input 1, .stmt, .rxdo 7, .stmt]
  exact ⟨_, _, hrun, by decide, rfl, (by decide : (0 : UInt8) < 1)⟩

end ClassicX.Msp430
