import ClassicX.Lib.Slots
import ClassicX.Theorems.Interrupts

/-! The ring of the receiver. `_cget` frees a slot when it has copied the byte, before it lowers the count: as long as at most
16 bytes wait to be copied, every byte is returned once and in order, though the count may be 17 for a while. -/

namespace ClassicX.Msp430
open Runs (Run Always)

/-! ### The ring -/

/-- What `_cget` has done: from `ready` on the ring is known not to be empty, from `copied` on the byte is in `__cg`, from
    `stepped` on its slot is behind `_rfrnt`, and at `lowered` it is not counted any more. -/
inductive Got
  | wait | ready | copied | over | stepped | lowered
  deriving DecidableEq

/-- The bytes that are copied but not returned. -/
def Got.ahead : Got → ℕ
  | .wait => 0
  | .ready => 0
  | _ => 1

/-- The bytes that are neither counted nor returned. -/
def Got.uncounted : Got → ℕ
  | .lowered => 1
  | _ => 0

/-- `_rfrnt`, when `n` bytes were returned. -/
def Got.index (n : ℕ) : Got → ℕ
  | .over => n % 16 + 1
  | .stepped => (n + 1) % 16
  | .lowered => (n + 1) % 16
  | _ => n % 16

def Main.got : Main → Got
  | .input _ _ .take => .ready
  | .input _ _ (.incr _) => .copied
  | .input _ _ (.wrap _) => .over
  | .input _ _ (.dint _) => .stepped
  | .input _ _ (.lower _) => .stepped
  | .input _ _ (.eint _) => .lowered
  | .input _ _ (.ret _) => .lowered
  | _ => .wait

/-- `__cg`, where it is set. -/
def Main.cg : Main → Option UInt8
  | .input _ _ (.incr cg) => some cg
  | .input _ _ (.wrap cg) => some cg
  | .input _ _ (.dint cg) => some cg
  | .input _ _ (.lower cg) => some cg
  | .input _ _ (.eint cg) => some cg
  | .input _ _ (.ret cg) => some cg
  | _ => none

/-- What the call of `input` has stored so far. -/
def Main.dst : Main → List UInt8
  | .input dst _ _ => dst
  | _ => []

/-- What `input` has returned, with what a call in progress has stored. -/
def Chip.got (s : Chip) : List UInt8 := s.inputs.flatten ++ s.main.dst

/-- The number of the bytes that `_cget` has copied out of `_rbuf`. -/
def Chip.copied (s : Chip) : ℕ := s.got.length + s.main.got.ahead

/-- The bytes in a ring. -/
def Ring.bytes (r : Ring) : List UInt8 := (List.range r.qty.toNat).map fun k => r.buf ((r.frnt.toNat + k) % 16)

/-- What was received starts with what was returned, and what was not copied is in the ring. -/
structure Receives (r : Ring) (received got : List UInt8) (cg : Option UInt8) (p : Got) : Prop where
  order : got <+: received
  next : ∀ b, cg = some b → received[got.length]? = some b
  window : Slots.Window 16 r.buf received (got.length + p.ahead) received.length
  frnt : r.frnt.toNat = p.index got.length
  back : r.back.toNat = received.length % 16
  qty : r.qty.toNat + (got.length + p.uncounted) = received.length
  ready : p = .ready → got.length < received.length

namespace Receives
variable {r : Ring} {received got : List UInt8} {cg : Option UInt8} {b : UInt8} {p : Got}

theorem empty : Receives {} [] [] none .wait where
  order := List.prefix_rfl
  next := nofun
  window := .empty 16 _
  frnt := rfl
  back := rfl
  qty := rfl
  ready := nofun

/-- A run of `_rxdo`, with a slot to store to. -/
theorem push (h : Receives r received got cg p) (hroom : received.length < got.length + p.ahead + 16) (rxbuf : UInt8) :
    Receives { r with buf := Function.update r.buf r.back.toNat rxbuf, back := (r.back + 1) &&& 15, qty := r.qty + 1 }
      (received ++ [rxbuf]) got cg p := by
  have hlen : (received ++ [rxbuf]).length = received.length + 1 := List.length_append
  have hnext : (received ++ [rxbuf])[received.length]? = some rxbuf := by simp
  have hahead : p.ahead ≤ 1 := by cases p <;> decide
  have hqty := h.qty
  refine ⟨h.order.trans (List.prefix_append _ _), fun b hb => ?_, ?_, h.frnt, ?_, ?_, fun hp => ?_⟩
  · have hnext := h.next b hb
    obtain ⟨hlt, -⟩ := List.getElem?_eq_some_iff.mp hnext
    rw [List.getElem?_append_left hlt, hnext]
  · rw [hlen, h.back]
    exact (h.window.grow [rxbuf]).push hroom hnext
  · rw [hlen]
    exact index_next h.back
  · rw [hlen]
    simp only
    rw [count_raise (by omega)]
    omega
  · have hready := h.ready hp
    omega

theorem test (h : Receives r received got none .wait) (hqty : r.qty ≠ 0) : Receives r received got none .ready where
  order := h.order
  next := nofun
  window := h.window
  frnt := h.frnt
  back := h.back
  qty := h.qty
  ready _ := by
    have hcount : r.qty.toNat + got.length = received.length := h.qty
    have hpos : r.qty.toNat ≠ 0 := fun h0 => hqty (UInt8.toNat_inj.mp h0)
    omega

/-- The slot may be written to from here on. -/
theorem take (h : Receives r received got none .ready) :
    Receives r received got (some (r.buf r.frnt.toNat)) .copied where
  order := h.order
  next b hb := by
    have hwindow : Slots.Window 16 r.buf received got.length received.length := h.window
    have hfrnt : r.frnt.toNat = got.length % 16 := h.frnt
    rw [← hb, hfrnt]
    exact hwindow.front_value (h.ready rfl)
  window := by
    have hwindow : Slots.Window 16 r.buf received got.length received.length := h.window
    exact hwindow.pop (h.ready rfl)
  frnt := h.frnt
  back := h.back
  qty := h.qty
  ready := nofun

theorem incr (h : Receives r received got cg .copied) : Receives { r with frnt := r.frnt + 1 } received got cg .over where
  order := h.order
  next := h.next
  window := h.window
  frnt := index_incr h.frnt
  back := h.back
  qty := h.qty
  ready := nofun

theorem wrap (h : Receives r received got cg .over) : Receives { r with frnt := r.frnt &&& 15 } received got cg .stepped where
  order := h.order
  next := h.next
  window := h.window
  frnt := index_wrap h.frnt
  back := h.back
  qty := h.qty
  ready := nofun

theorem lower (h : Receives r received got (some b) .stepped) :
    Receives { r with qty := r.qty - 1 } received got (some b) .lowered where
  order := h.order
  next := h.next
  window := h.window
  frnt := h.frnt
  back := h.back
  qty := by
    obtain ⟨hlt, -⟩ := List.getElem?_eq_some_iff.mp (h.next b rfl)
    have hcount : r.qty.toNat + got.length = received.length := h.qty
    have hlower := count_lower (x := r.qty) fun h0 => by
      rw [h0] at hcount
      simp at hcount
      omega
    simp only [Got.uncounted]
    omega
  ready := nofun

theorem ret (h : Receives r received got (some b) .lowered) : Receives r received (got ++ [b]) none .wait := by
  have hlen : (got ++ [b]).length = got.length + 1 := List.length_append
  have hqty : r.qty.toNat + (got.length + 1) = received.length := h.qty
  refine ⟨?_, nofun, ?_, ?_, h.back, ?_, nofun⟩
  · rw [List.prefix_iff_eq_take, hlen, List.take_add_one, h.next b rfl, ← List.prefix_iff_eq_take.mp h.order]
    rfl
  · rw [hlen]
    exact h.window
  · rw [hlen]
    exact h.frnt
  · rw [hlen]
    exact hqty

/-- While `_cget` does not copy a byte, what was not returned is in the ring. -/
theorem bytes (h : Receives r received got cg .wait) : received = got ++ r.bytes := by
  have hwindow : Slots.Window 16 r.buf received got.length received.length := h.window
  have hfrnt : r.frnt.toNat = got.length % 16 := h.frnt
  have hqty : r.qty.toNat + got.length = received.length := h.qty
  have hcount : received.length - got.length = r.qty.toNat := by omega
  have hcontents := hwindow.contents rfl
  rw [← List.prefix_iff_eq_take.mp h.order, hcount] at hcontents
  rw [Ring.bytes, hfrnt]
  simp only [Nat.mod_add_mod]
  exact hcontents

theorem back_eq (h : Receives r received got cg .wait) : r.back.toNat = (r.frnt.toNat + r.qty.toNat) % 16 := by
  have hfrnt : r.frnt.toNat = got.length % 16 := h.frnt
  have hqty : r.qty.toNat + got.length = received.length := h.qty
  rw [h.back, hfrnt]
  omega

end Receives

/-! ### Runs -/

/-- The ring of the receiver is in order in a state. -/
def InStep (s : Chip) : Prop := Receives s.r s.received s.got s.main.cg s.main.got

section Steps
variable {s s' : Chip} {act : Act}

theorem loop_receives {dst : List UInt8} (qty : ℕ) (h : Receives s.r s.received (s.inputs.flatten ++ dst) none .wait) :
    InStep (input.loop s dst qty) := by
  unfold input.loop
  split
  · have hflat : s.inputs.flatten ++ dst = (s.inputs ++ [dst]).flatten ++ [] := by simp
    rw [hflat] at h
    exact h
  · exact h

theorem cget_receives {dst : List UInt8} {qty : ℕ} {pc : Cget} (hs : InStep s) (hmain : s.main = .input dst qty pc) :
    InStep (cget s dst qty pc) := by
  rw [InStep, Chip.got, hmain] at hs
  cases pc with
  | test =>
    by_cases hqty : s.r.qty = 0
    · unfold cget InStep
      simp only [if_pos hqty]
      exact hs
    · unfold cget InStep
      simp only [if_neg hqty]
      exact hs.test hqty
  | lpm0 => exact hs
  | take => exact hs.take
  | incr cg => exact hs.incr
  | wrap cg => exact hs.wrap
  | dint cg => exact hs
  | lower cg => exact hs.lower
  | eint cg => exact hs
  | ret cg =>
    have hret := hs.ret
    rw [List.append_assoc] at hret
    exact loop_receives (qty - 1) hret

theorem step_receives (hs : InStep s) (hstep : Happens s act s') (hroom : s'.received.length ≤ s'.copied + 16) :
    InStep s' := by
  cases hstep with
  | input qty hmain =>
    rw [InStep, Chip.got, hmain] at hs
    exact loop_receives qty hs
  | output src hmain =>
    rw [InStep, Chip.got, hmain] at hs
    cases src with
    | nil => exact hs
    | cons src bytes => exact hs
  | cget _ hmain => exact cget_receives hs hmain
  | @cput src bytes pc _ hmain =>
    rw [InStep, Chip.got, hmain] at hs
    cases pc with
    | enable =>
      cases bytes with
      | nil => exact hs
      | cons src bytes => exact hs
    | _ => exact hs
  | rxdo rxbuf _ =>
    have hlen : (s.received ++ [rxbuf]).length = s.received.length + 1 := List.length_append
    have hroom : (s.received ++ [rxbuf]).length ≤ s.got.length + s.main.got.ahead + 16 := hroom
    exact hs.push (by omega) rxbuf
  | txdo => exact hs
  | idle => exact hs

end Steps

/-- While at most 16 bytes wait to be copied, `input` returns what was received, and what it did not return is in the
    ring. -/
theorem received_in_order {h : List Step} {s : Chip} (hrun : Run chip {} h s)
    (hroom : Always (fun _ t => t.s'.received.length ≤ t.s'.copied + 16) h) :
    s.got <+: s.received ∧
    (s.main.got = .wait → s.received = s.got ++ s.r.bytes ∧ s.r.back.toNat = (s.r.frnt.toNat + s.r.qty.toNat) % 16) := by
  have hs : InStep s := hrun.inv_always (fun _ s => InStep s) .empty (fun _ t hs hok hk => step_receives hs (step_happens hok) hk)
    hroom
  refine ⟨hs.order, fun hwait => ?_⟩
  rw [InStep, hwait] at hs
  exact ⟨hs.bytes, hs.back_eq⟩

/-- The second of two bytes is received while the first is copied. -/
theorem received_in_order_two : ∃ (h : List Step) (s : Chip), Run chip {} h s ∧ s.received = [5, 6] ∧
    Always (fun _ t => t.s'.received.length ≤ t.s'.copied + 16) h ∧ s.inputs = [[5, 6]] ∧ s.got <+: s.received := by
  have hrun := steps_run ([.input 2, .rxdo 5] ++ List.replicate 4 .stmt ++ [.rxdo 6] ++ List.replicate 12 .stmt)
  exact ⟨_, _, hrun, by decide, by decide, by decide, (received_in_order hrun (by decide)).1⟩

end ClassicX.Msp430
