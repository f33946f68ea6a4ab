import ClassicX.Lib.Slots
import ClassicX.Theorems.Interrupts

/-! The ring of the transmitter. What `_cput` stores goes out in order, and the count of the ring stays right, as long as
`_txdo` does not run on an empty ring. `UCA0TXIE` is set after interrupts are enabled again: where `_txdo` has emptied the
ring in between, it is set for nothing. -/

namespace ClassicX.Msp430
open Runs (Run Always)

/-! ### The ring -/

/-- What `_cput` has done: from `room` on the ring is known not to be full, from `put` on the byte is in its slot, and at
    `done` only the count is still to be raised. -/
inductive Put
  | wait | room | put | over | done
  deriving DecidableEq

/-- The bytes that are stored but not counted. -/
def Put.ahead : Put → ℕ
  | .put => 1
  | .over => 1
  | .done => 1
  | _ => 0

/-- `_wback`, when `n` bytes were counted. -/
def Put.index (n : ℕ) : Put → ℕ
  | .over => n % 16 + 1
  | .done => (n + 1) % 16
  | _ => n % 16

def Main.put : Main → Put
  | .output _ _ .store => .room
  | .output _ _ .incr => .put
  | .output _ _ .wrap => .over
  | .output _ _ .dint => .done
  | .output _ _ .raise => .done
  | _ => .wait

/-- The bytes given to `output` that are not counted yet. -/
def Main.left : Main → List UInt8
  | .output _ bytes .eint => bytes
  | .output _ bytes .enable => bytes
  | .output src bytes _ => src :: bytes
  | _ => []

/-- `n` bytes of `out` were counted, and those that were not sent are in the ring. -/
structure Sends (w : Ring) (sent out left : List UInt8) (p : Put) (n : ℕ) : Prop where
  pending : out.drop n = left
  order : sent <+: out
  window : Slots.Window 16 w.buf out sent.length (n + p.ahead)
  frnt : w.frnt.toNat = sent.length % 16
  back : w.back.toNat = p.index n
  qty : w.qty.toNat + sent.length = n
  room : p ≠ .wait → w.qty.toNat < 16

namespace Sends
variable {w : Ring} {sent out left bytes : List UInt8} {src : UInt8} {p : Put} {n : ℕ}

theorem empty : Sends {} [] [] [] .wait 0 where
  pending := rfl
  order := List.prefix_rfl
  window := .empty 16 _
  frnt := rfl
  back := rfl
  qty := rfl
  room h := absurd rfl h

theorem qty_le (h : Sends w sent out left p n) : w.qty ≤ 16 := by
  have hqty := h.qty
  have hfits := h.window.fits
  rw [UInt8.le_iff_toNat_le]
  exact (by omega : w.qty.toNat ≤ 16)

/-- A call of `output`. -/
theorem call (h : Sends w sent out [] .wait n) (src : List UInt8) : Sends w sent (out ++ src) src .wait n where
  pending := by
    have hlen := List.drop_eq_nil_iff.mp h.pending
    have hwithin := h.window.within
    have hn : n = out.length := le_antisymm hwithin hlen
    rw [hn, List.drop_left]
  order := h.order.trans (List.prefix_append _ _)
  window := h.window.grow src
  frnt := h.frnt
  back := h.back
  qty := h.qty
  room := h.room

theorem test (h : Sends w sent out left .wait n) (hqty : 16 ≠ w.qty) : Sends w sent out left .room n where
  pending := h.pending
  order := h.order
  window := h.window
  frnt := h.frnt
  back := h.back
  qty := h.qty
  room _ := by
    have hle := UInt8.le_iff_toNat_le.mp h.qty_le
    have hne : w.qty.toNat ≠ 16 := fun heq => hqty (UInt8.toNat_inj.mp heq.symm)
    exact lt_of_le_of_ne hle hne

theorem store (h : Sends w sent out (src :: bytes) .room n) :
    Sends { w with buf := Function.update w.buf w.back.toNat src } sent out (src :: bytes) .put n where
  pending := h.pending
  order := h.order
  window := by
    have hnext : out[n]? = some src := by rw [← List.head?_drop, h.pending, List.head?_cons]
    have hroom := h.room (by decide)
    have hqty := h.qty
    have hwindow : Slots.Window 16 w.buf out sent.length n := h.window
    rw [h.back]
    exact hwindow.push (by omega) hnext
  frnt := h.frnt
  back := h.back
  qty := h.qty
  room _ := h.room (by decide)

theorem incr (h : Sends w sent out left .put n) : Sends { w with back := w.back + 1 } sent out left .over n where
  pending := h.pending
  order := h.order
  window := h.window
  frnt := h.frnt
  back := index_incr h.back
  qty := h.qty
  room _ := h.room (by decide)

theorem wrap (h : Sends w sent out left .over n) : Sends { w with back := w.back &&& 15 } sent out left .done n where
  pending := h.pending
  order := h.order
  window := h.window
  frnt := h.frnt
  back := index_wrap h.back
  qty := h.qty
  room _ := h.room (by decide)

theorem raise (h : Sends w sent out (src :: bytes) .done n) :
    Sends { w with qty := w.qty + 1 } sent out bytes .wait (n + 1) where
  pending := by rw [← List.tail_drop, h.pending, List.tail_cons]
  order := h.order
  window := h.window
  frnt := h.frnt
  back := h.back
  qty := by
    have hroom := h.room (by decide)
    have hqty := h.qty
    simp only
    rw [count_raise (by omega)]
    omega
  room hne := absurd rfl hne

/-- A run of `_txdo` that finds a byte. -/
theorem pop (h : Sends w sent out left p n) (hne : w.qty ≠ 0) :
    Sends { w with frnt := (w.frnt + 1) &&& 15, qty := w.qty - 1 } (sent ++ [w.buf w.frnt.toNat]) out left p n := by
  have hlower := count_lower hne
  have hqty := h.qty
  have hlen : (sent ++ [w.buf w.frnt.toNat]).length = sent.length + 1 := List.length_append
  have hlt : sent.length < n + p.ahead := by omega
  refine ⟨h.pending, ?_, ?_, ?_, h.back, ?_, fun hp => ?_⟩
  · rw [List.prefix_iff_eq_take, hlen, h.window.take_succ hlt, h.frnt, ← List.prefix_iff_eq_take.mp h.order]
  · rw [hlen]
    exact h.window.pop hlt
  · rw [hlen]
    exact index_next h.frnt
  · rw [hlen]
    simp only
    omega
  · have hroom := h.room hp
    simp only
    omega

end Sends

/-! ### Runs -/

/-- What has to hold of a step: `_txdo` runs on a ring with a byte, what was sent is what was given to `output` so far, and
    the ring has at most 16 bytes. -/
structure InOrder (t : Step) : Prop where
  nonempty : t.act = .txdo → t.s.w.qty ≠ 0
  order : t.s'.sent <+: t.s'.outputs.flatten
  qty : t.s'.w.qty ≤ 16

/-- The statement of `_cput` that comes next. -/
def Main.cput : Main → Option Cput
  | .output _ _ pc => some pc
  | _ => none

def Step.Does (t : Step) (pc : Cput) : Prop := t.act = .stmt ∧ t.s.main.cput = some pc

instance (t : Step) (pc : Cput) : Decidable (t.Does pc) := inferInstanceAs (Decidable (_ ∧ _))

/-- `UCA0TXIE` was set on an empty ring, and no byte was counted since. -/
def Armed : List Step → Prop
  | [] => False
  | t :: h => t.Does .enable ∧ t.s.w.qty = 0 ∨ ¬t.Does .raise ∧ Armed h

/-- The ring of the transmitter is in order, and its interrupt is enabled on an empty ring only where it was armed. -/
structure Transmits (h : List Step) (s : Chip) : Prop where
  sends : ∃ n, Sends s.w s.sent s.outputs.flatten s.main.left s.main.put n
  armed : Armed h → s.w.qty = 0
  enabled : s.txie = true → s.w.qty = 0 → Armed h

section Steps
variable {h : List Step} {s s' : Chip}

/-- A statement of `_cput`, and the ring. -/
theorem cput_sends {src : UInt8} {bytes : List UInt8} {pc : Cput} {n : ℕ}
    (hsends : Sends s.w s.sent s.outputs.flatten (Main.output src bytes pc).left (Main.output src bytes pc).put n) :
    ∃ n, Sends (cput s src bytes pc).w (cput s src bytes pc).sent (cput s src bytes pc).outputs.flatten
      (cput s src bytes pc).main.left (cput s src bytes pc).main.put n := by
  cases pc with
  | test =>
    by_cases hqty : 16 = s.w.qty
    · refine ⟨n, ?_⟩
      simp only [cput, if_pos hqty]
      exact hsends
    · refine ⟨n, ?_⟩
      simp only [cput, if_neg hqty]
      exact hsends.test hqty
  | lpm0 => exact ⟨n, hsends⟩
  | store => exact ⟨n, hsends.store⟩
  | incr => exact ⟨n, hsends.incr⟩
  | wrap => exact ⟨n, hsends.wrap⟩
  | dint => exact ⟨n, hsends⟩
  | raise => exact ⟨n + 1, hsends.raise⟩
  | eint => exact ⟨n, hsends⟩
  | enable =>
    cases bytes with
    | nil => exact ⟨n, hsends⟩
    | cons src bytes => exact ⟨n, hsends⟩

theorem step_sends {act : Act} (hsends : ∃ n, Sends s.w s.sent s.outputs.flatten s.main.left s.main.put n)
    (hstep : Happens s act s') (hk : act = .txdo → s.w.qty ≠ 0) :
    ∃ n, Sends s'.w s'.sent s'.outputs.flatten s'.main.left s'.main.put n := by
  obtain ⟨n, hsends⟩ := hsends
  cases hstep with
  | input qty hmain =>
    rw [hmain] at hsends
    refine ⟨n, ?_⟩
    unfold input.loop
    split
    · exact hsends
    · exact hsends
  | output src hmain =>
    rw [hmain] at hsends
    have hcall := hsends.call src
    have hflat : (s.outputs ++ [src]).flatten = s.outputs.flatten ++ src := by simp
    rw [← hflat] at hcall
    cases src with
    | nil => exact ⟨n, hcall⟩
    | cons src bytes => exact ⟨n, hcall⟩
  | @cget dst qty pc _ hmain =>
    rw [hmain] at hsends
    refine ⟨n, ?_⟩
    cases pc with
    | ret cg =>
      simp only [cget, input.loop]
      split
      · exact hsends
      · exact hsends
    | _ => exact hsends
  | cput _ hmain =>
    rw [hmain] at hsends
    exact cput_sends hsends
  | rxdo rxbuf _ => exact ⟨n, hsends⟩
  | txdo => exact ⟨n, hsends.pop (hk rfl)⟩
  | idle => exact ⟨n, hsends⟩

/-- A step that leaves the count and the interrupt as they are. -/
theorem Transmits.quiet {act : Act} (hs : Transmits h s)
    (hsends : ∃ n, Sends s'.w s'.sent s'.outputs.flatten s'.main.left s'.main.put n)
    (hframe : s'.w.qty = s.w.qty ∧ s'.txie = s.txie)
    (hdoes : ∀ pc, (Step.mk s act s').Does pc → pc ≠ .enable ∧ pc ≠ .raise) : Transmits (⟨s, act, s'⟩ :: h) s' := by
  have henable : ¬(Step.mk s act s').Does .enable := fun h => (hdoes _ h).1 rfl
  have hraise : ¬(Step.mk s act s').Does .raise := fun h => (hdoes _ h).2 rfl
  have harmed : Armed (⟨s, act, s'⟩ :: h) ↔ Armed h := by
    simp only [Armed, henable, hraise, false_and, not_false_eq_true, true_and, false_or]
  refine ⟨hsends, ?_, ?_⟩
  · rw [harmed, hframe.1]
    exact hs.armed
  · rw [harmed, hframe.1, hframe.2]
    exact hs.enabled

theorem cput_transmits {src : UInt8} {bytes : List UInt8} {pc : Cput} (hs : Transmits h s)
    (hmain : s.main = .output src bytes pc) (hsends : ∃ n, Sends (cput s src bytes pc).w (cput s src bytes pc).sent
      (cput s src bytes pc).outputs.flatten (cput s src bytes pc).main.left (cput s src bytes pc).main.put n) :
    Transmits (⟨s, .stmt, cput s src bytes pc⟩ :: h) (cput s src bytes pc) := by
  have hdoes : ∀ pc', (Step.mk s .stmt (cput s src bytes pc)).Does pc' ↔ pc = pc' := by
    intro pc'
    simp [Step.Does, hmain, Main.cput]
  cases pc with
  | raise =>
    have hroom : s.w.qty.toNat < 16 := by
      obtain ⟨n, hsends⟩ := hs.sends
      rw [hmain] at hsends
      exact hsends.room nofun
    have hpos : s.w.qty + 1 ≠ 0 := by
      intro h0
      have hraise := count_raise (x := s.w.qty) (by omega)
      rw [h0] at hraise
      cases hraise
    refine ⟨hsends, fun harmed => ?_, fun _ hzero => absurd hzero hpos⟩
    rw [Armed, hdoes, hdoes] at harmed
    rcases harmed with ⟨h0, -⟩ | ⟨h0, -⟩
    · cases h0
    · exact absurd rfl h0
  | enable =>
    have hw : (cput s src bytes .enable).w = s.w := by cases bytes <;> rfl
    refine ⟨hsends, fun harmed => ?_, fun _ hzero => ?_⟩
    · rw [hw]
      rcases harmed with ⟨-, hzero⟩ | ⟨-, harmed⟩
      · exact hzero
      · exact hs.armed harmed
    · rw [hw] at hzero
      exact Or.inl ⟨(hdoes _).mpr rfl, hzero⟩
  | _ =>
    refine hs.quiet hsends ⟨rfl, rfl⟩ fun pc' hpc => ?_
    rw [← (hdoes pc').mp hpc]
    decide

theorem Transmits.nonempty (hs : Transmits h s) (hstep : Happens s .txdo s') (hk : ¬Armed h) : s.w.qty ≠ 0 := by
  cases hstep with
  | txdo _ htxie _ => exact fun hzero => hk (hs.enabled htxie hzero)

theorem input_frame (dst : List UInt8) (qty : ℕ) :
    (input.loop s dst qty).w.qty = s.w.qty ∧ (input.loop s dst qty).txie = s.txie := by
  unfold input.loop
  split <;> exact ⟨rfl, rfl⟩

theorem step_transmits {act : Act} (hs : Transmits h s) (hstep : Happens s act s') (hk : act = .txdo → ¬Armed h) :
    Transmits (⟨s, act, s'⟩ :: h) s' := by
  have hsends := step_sends hs.sends hstep fun hact => hs.nonempty (hact ▸ hstep) (hk hact)
  -- A step that is no statement of `_cput`.
  have hother : act ≠ .stmt ∨ s.main.cput = none → ∀ pc, (Step.mk s act s').Does pc → pc ≠ .enable ∧ pc ≠ .raise := by
    rintro hno pc ⟨hact, hpc⟩
    rcases hno with hno | hno
    · exact absurd hact hno
    · rw [hno] at hpc
      cases hpc
  cases hstep with
  | input qty _ => exact hs.quiet hsends (input_frame [] qty) (hother (.inl nofun))
  | output src _ =>
    cases src with
    | nil => exact hs.quiet hsends ⟨rfl, rfl⟩ (hother (.inl nofun))
    | cons src bytes => exact hs.quiet hsends ⟨rfl, rfl⟩ (hother (.inl nofun))
  | @cget dst qty pc _ hmain =>
    have hframe : (cget s dst qty pc).w.qty = s.w.qty ∧ (cget s dst qty pc).txie = s.txie := by
      cases pc with
      | ret cg => exact input_frame _ _
      | _ => exact ⟨rfl, rfl⟩
    have hnone : s.main.cput = none := by
      rw [hmain]
      rfl
    exact hs.quiet hsends hframe (hother (.inr hnone))
  | cput _ hmain => exact cput_transmits hs hmain hsends
  | rxdo rxbuf _ => exact hs.quiet hsends ⟨rfl, rfl⟩ (hother (.inl nofun))
  | txdo =>
    refine ⟨hsends, fun harmed => ?_, fun htxie hzero => ?_⟩
    · rcases harmed with ⟨⟨hact, -⟩, -⟩ | ⟨-, harmed⟩
      · cases hact
      · exact absurd harmed (hk rfl)
    · simp only [txdo] at htxie hzero
      rw [if_pos hzero] at htxie
      cases htxie
  | idle => exact hs.quiet hsends ⟨rfl, rfl⟩ (hother (.inl nofun))

end Steps

/-- The ring of the transmitter is in order exactly if `_txdo` never runs while it is armed. -/
theorem transmits_iff {h : List Step} {s : Chip} (hrun : Run chip {} h s) :
    Always (fun _ t => InOrder t) h ↔ Always (fun h t => t.act = .txdo → ¬Armed h) h := by
  refine hrun.always_iff Transmits ⟨⟨0, .empty⟩, False.elim, nofun⟩ (fun h t hs hok hk => ?_) (fun h t hs hok => ?_)
  · exact step_transmits hs (step_happens hok) hk
  · constructor
    · intro horder hact harmed
      exact horder.nonempty hact (hs.armed harmed)
    · intro hk
      obtain ⟨n, hsends⟩ := (step_transmits hs (step_happens hok) hk).sends
      exact ⟨fun hact => hs.nonempty (hact ▸ step_happens hok) (hk hact), hsends.order, hsends.qty_le⟩

/-- One byte is stored and goes out. -/
theorem transmits_iff_byte : ∃ (h : List Step) (s : Chip), Run chip {} h s ∧ s.sent = [7] ∧
    (Always (fun _ t => InOrder t) h ↔ Always (fun h t => t.act = .txdo → ¬Armed h) h) := by
  have hrun := steps_run (.output [7] :: List.replicate 8 .stmt ++ [.txdo])
  exact ⟨_, _, hrun, by decide, transmits_iff hrun⟩

/-- The second of two bytes goes out before `_cput` enables the interrupt for it: what is sent next is not in the ring, and
    the count wraps. -/
theorem transmits_stale : ∃ (h : List Step) (s : Chip), Run chip {} h s ∧ s.outputs = [[1, 2]] ∧ s.sent = [1, 2, 0] ∧
    s.w.qty = 255 ∧ ¬Always (fun _ t => InOrder t) h := by
  have hrun := steps_run (.output [1, 2] :: List.replicate 15 .stmt ++ [.txdo, .idle, .txdo, .stmt, .idle, .txdo])
  refine ⟨_, _, hrun, by decide, by decide, by decide, fun hall => ?_⟩
  have hnonempty := hall.2.nonempty rfl
  exact hnonempty (by decide)

end ClassicX.Msp430
