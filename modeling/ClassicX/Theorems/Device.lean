import ClassicX.Server.Device
import ClassicX.Theorems.Causality
import ClassicX.Theorems.Platforms
import ClassicX.Theorems.Receive
import ClassicX.Theorems.Transmit

/-! The server on the microcontroller: while the rings are in order, the bytes that go out are those that the loop of `start` gives
away for what `input` has returned. -/

namespace ClassicX.Msp430
open Runs (Run Always)

/-! ### The chip -/

/-- A call of `input` for `len` bytes is in progress, or has returned, after those of `pre`. -/
def Chip.Reading (s : Chip) (len : ℕ) (pre : List (List UInt8)) : Prop :=
  match s.main with
  | .rest => ∃ bs, s.inputs = pre ++ [bs] ∧ bs.length = len
  | .input dst qty _ => s.inputs = pre ∧ 0 < qty ∧ dst.length + qty = len
  | .output _ _ _ => False

/-- The calls of `input` were those of `pre`, and none is in progress. -/
def Chip.Done (s : Chip) (pre : List (List UInt8)) : Prop :=
  match s.main with
  | .rest => s.inputs = pre
  | .input _ _ _ => False
  | .output _ _ _ => s.inputs = pre

section Chip
variable {s s' : Chip} {act : Act} {len : ℕ} {pre : List (List UInt8)}

theorem input_reading {dst : List UInt8} {qty : ℕ} (hinputs : s.inputs = pre) (hlen : dst.length + qty = len) :
    (input.loop s dst qty).Reading len pre := by
  unfold input.loop
  split
  case isTrue hqty => exact ⟨dst, by rw [hinputs], by omega⟩
  case isFalse hqty => exact ⟨hinputs, Nat.pos_of_ne_zero hqty, hlen⟩

theorem output_done {src : List UInt8} (hinputs : s.inputs = pre) : (output.loop s src).Done pre := by
  cases src with
  | nil => exact hinputs
  | cons src bytes => exact hinputs

theorem input_loop_outputs (dst : List UInt8) (qty : ℕ) : (input.loop s dst qty).outputs = s.outputs := by
  unfold input.loop
  split <;> rfl

theorem output_loop_outputs (src : List UInt8) : (output.loop s src).outputs = s.outputs := by
  cases src <;> rfl

theorem own_outputs (hown : act.own = true) (hstep : Happens s act s') : s'.outputs = s.outputs := by
  cases hstep with
  | input qty _ => cases hown
  | output src _ => cases hown
  | @cget dst qty pc _ _ =>
    cases pc with
    | ret cg => exact input_loop_outputs _ _
    | _ => rfl
  | @cput src bytes pc _ _ =>
    cases pc with
    | enable => exact output_loop_outputs (s := { s with txie := true }) bytes
    | _ => rfl
  | _ => rfl

theorem own_reading (hown : act.own = true) (hstep : Happens s act s') (hs : s.Reading len pre) : s'.Reading len pre := by
  cases hstep with
  | input qty _ => cases hown
  | output src _ => cases hown
  | @cget dst qty pc _ hmain =>
    rw [Chip.Reading, hmain] at hs
    obtain ⟨hinputs, hqty, hlen⟩ := hs
    cases pc with
    | ret cg => exact input_reading hinputs (by rw [List.length_append, List.length_singleton]; omega)
    | _ => exact ⟨hinputs, hqty, hlen⟩
  | cput _ hmain =>
    rw [Chip.Reading, hmain] at hs
    exact hs.elim
  | _ => exact hs

theorem own_done (hown : act.own = true) (hstep : Happens s act s') (hs : s.Done pre) : s'.Done pre := by
  cases hstep with
  | input qty _ => cases hown
  | output src _ => cases hown
  | cget _ hmain =>
    rw [Chip.Done, hmain] at hs
    exact hs.elim
  | @cput src bytes pc _ hmain =>
    rw [Chip.Done, hmain] at hs
    cases pc with
    | enable => exact output_done (s := { s with txie := true }) hs
    | _ => exact hs
  | _ => exact hs

end Chip

/-! ### The device -/

/-- The microcontroller does what the standard C library does, and does not mind a name that is not there. -/
theorem platform_above : stdc.Below platform where
  warn _ _ _ := rfl
  strim := strim_eq.symm

/-- The calls of `output` that are left of the answer. -/
def Phase.left : Phase → List (List UInt8)
  | .asks => []
  | .reads => []
  | .gives left => left

/-- Where the calls of `input` are, when the handlers were given what those of `pre` returned. -/
def Device.At (d : Device) (pre : List (List UInt8)) : Prop :=
  match d.phase with
  | .asks => d.chip.Done pre
  | .reads => d.ct ≠ .invalid ∧ d.chip.Reading (mcctlen d.w.z.session d.ct).toNat pre
  | .gives _ => d.chip.Done pre

/-- The server is where the loop of `start` is after what the calls of `pre` returned, whatever comes next, and the calls of
    `output` were those of the loop, but for those that are left. -/
structure Device.Follows (ldefault : Ptr) (ldsize : Int16) (lddim : Mcvec) (d : Device) (pre : List (List UInt8)) : Prop where
  starts : ∀ more, ∃ h, Starts ldefault ldsize lddim (pre.flatten ++ more) h (d.ct, d.w.unread ⟨more, false⟩)
  given : d.chip.outputs ++ d.phase.left = d.w.outputs
  calls : d.At pre

/-- The steps of the device, by what takes them. -/
inductive Device.Happens (d : Device) : Work → Device → Prop
  | chip {act : Act} {s : Chip} (hown : act.own = true) (hstep : Msp430.step d.chip act = some s) :
      Happens d (.chip act) { d with chip := s }
  | asks {s : Chip} (hphase : d.phase = .asks) (hct : d.ct ≠ .invalid)
      (hstep : Msp430.step d.chip (.input (mcctlen d.w.z.session d.ct).toNat) = some s) :
      Happens d .start { d with chip := s, phase := .reads }
  | reads {nxt : Mcctyp} {w : World} (hphase : d.phase = .reads) (hmain : d.chip.main = .rest)
      (hcloop : cloop (d.w.unread ⟨d.chip.inputs.getLastD [], false⟩) d.ct = some (nxt, w)) :
      Happens d .start { d with ct := nxt, w := w, phase := .gives (w.outputs.drop d.w.outputs.length) }
  | given (hphase : d.phase = .gives []) : Happens d .start { d with phase := .asks }
  | gives {src : List UInt8} {left : List (List UInt8)} {s : Chip} (hphase : d.phase = .gives (src :: left))
      (hstep : Msp430.step d.chip (.output src) = some s) :
      Happens d .start { d with chip := s, phase := .gives left }

theorem device_happens {d d' : Device} {work : Work} (h : d.step work = some d') : d.Happens work d' := by
  cases work with
  | chip act =>
    simp only [Device.step, Option.ite_none_right_eq_some, Option.map_eq_some_iff] at h
    obtain ⟨hown, s, hstep, rfl⟩ := h
    exact .chip hown hstep
  | start =>
    simp only [Device.step] at h
    split at h
    case h_1 hphase =>
      simp only [Option.ite_none_left_eq_some, Option.map_eq_some_iff] at h
      obtain ⟨hct, s, hstep, rfl⟩ := h
      exact .asks hphase hct hstep
    case h_2 hphase =>
      simp only [Option.ite_none_right_eq_some, Option.map_eq_some_iff] at h
      obtain ⟨hmain, ⟨nxt, w⟩, hcloop, rfl⟩ := h
      exact .reads hphase hmain hcloop
    case h_3 hphase =>
      cases h
      exact .given hphase
    case h_4 src left hphase =>
      obtain ⟨s, hstep, rfl⟩ := Option.map_eq_some_iff.mp h
      exact .gives hphase hstep

/-- The chip takes the steps that the device has for it. -/
theorem device_chip {d₀ d : Device} {h : List Tick} (hrun : Run device d₀ h d) :
    Run chip d₀.chip (h.filterMap Tick.step) d.chip := by
  refine hrun.project Device.chip Tick.step fun t hok => ?_
  obtain ⟨d, work, d'⟩ := t
  have hhap : d.Happens work d' := device_happens hok
  cases hhap with
  | chip hown hstep => exact Or.inr ⟨_, rfl, rfl, rfl, hstep⟩
  | asks hphase hct hstep =>
    rw [Tick.step, hphase]
    exact Or.inr ⟨_, rfl, rfl, rfl, hstep⟩
  | reads hphase hmain hcloop =>
    rw [Tick.step, hphase]
    exact Or.inl ⟨rfl, rfl⟩
  | given hphase =>
    rw [Tick.step, hphase]
    exact Or.inl ⟨rfl, rfl⟩
  | gives hphase hstep =>
    rw [Tick.step, hphase]
    exact Or.inr ⟨_, rfl, rfl, rfl, hstep⟩

/-! ### Runs -/

section Runs
variable {ldefault : Ptr} {ldsize : Int16} {lddim : Mcvec} {d d' : Device} {pre : List (List UInt8)}

theorem unread_cloop {w : World} {ct : Mcctyp} {bs : List UInt8} (hlen : mcctlen w.z.session ct = bs.length) (more : List UInt8) :
    cloop (w.unread ⟨bs ++ more, false⟩) ct = (cloop (w.unread ⟨bs, false⟩) ct).map (afterResult [] ⟨more, false⟩) :=
  ClassicX.unread_cloop (P := platform) hlen more

theorem Device.Follows.reads {nxt : Mcctyp} {w : World} (hd : d.Follows ldefault ldsize lddim pre) (hphase : d.phase = .reads)
    (hmain : d.chip.main = .rest) (hcloop : cloop (d.w.unread ⟨d.chip.inputs.getLastD [], false⟩) d.ct = some (nxt, w)) :
    ∃ pre', ({ d with ct := nxt, w := w, phase := .gives (w.outputs.drop d.w.outputs.length) } : Device).Follows
      ldefault ldsize lddim pre' := by
  have hcalls := hd.calls
  rw [Device.At, hphase] at hcalls
  obtain ⟨hct, hreading⟩ := hcalls
  rw [Chip.Reading, hmain] at hreading
  obtain ⟨bs, hinputs, hlen⟩ := hreading
  have hlast : d.chip.inputs.getLastD [] = bs := by rw [hinputs, List.getLastD_concat]
  rw [hlast] at hcloop
  have hasks : mcctlen d.w.z.session d.ct = bs.length := by
    have hpos := mcctlen_nonneg d.w.z.session hct
    omega
  have hcloop : ∀ more, cloop (d.w.unread ⟨bs ++ more, false⟩) d.ct = some (nxt, w.unread ⟨more, false⟩) := by
    intro more
    rw [unread_cloop hasks, hcloop]
    rfl
  refine ⟨d.chip.inputs, fun more => ?_, ?_, ?_⟩
  · obtain ⟨h, hrun⟩ := hd.starts (bs ++ more)
    rw [hinputs, List.flatten_append, List.flatten_singleton, List.append_assoc]
    exact ⟨_, Run.next (S := @start.loop platform) ⟨_, _, _, _⟩ hrun ⟨hct, hcloop more⟩⟩
  · obtain ⟨⟨outs, houts⟩, -⟩ := cloop_grows (P := platform) (hcloop [])
    have hgiven := hd.given
    have houts : w.outputs = d.w.outputs ++ outs := houts
    rw [hphase, Phase.left, List.append_nil] at hgiven
    rw [houts, List.drop_left, ← hgiven]
    rfl
  · rw [Device.At, Chip.Done, hmain]

theorem Device.Follows.chip {act : Act} {s : Chip} (hd : d.Follows ldefault ldsize lddim pre) (hown : act.own = true)
    (hstep : Msp430.Happens d.chip act s) : ({ d with chip := s } : Device).Follows ldefault ldsize lddim pre := by
  refine ⟨hd.starts, ?_, ?_⟩
  · rw [← hd.given, ← own_outputs hown hstep]
  · have hcalls := hd.calls
    unfold Device.At at hcalls ⊢
    cases hphase : d.phase with
    | reads =>
      rw [hphase] at hcalls
      exact ⟨hcalls.1, own_reading hown hstep hcalls.2⟩
    | _ =>
      rw [hphase] at hcalls
      exact own_done hown hstep hcalls

theorem Device.Follows.asks {s : Chip} (hd : d.Follows ldefault ldsize lddim pre) (hphase : d.phase = .asks) (hct : d.ct ≠ .invalid)
    (hstep : Msp430.step d.chip (.input (mcctlen d.w.z.session d.ct).toNat) = some s) :
    ({ d with chip := s, phase := .reads } : Device).Follows ldefault ldsize lddim pre := by
  have hcalls := hd.calls
  have hgiven := hd.given
  rw [Device.At, hphase] at hcalls
  rw [hphase] at hgiven
  cases step_happens hstep with
  | input qty hmain =>
    rw [Chip.Done, hmain] at hcalls
    exact ⟨hd.starts, by rw [input_loop_outputs]; exact hgiven, hct, input_reading hcalls (Nat.zero_add _)⟩

theorem Device.Follows.gives {src : List UInt8} {left : List (List UInt8)} {s : Chip} (hd : d.Follows ldefault ldsize lddim pre)
    (hphase : d.phase = .gives (src :: left)) (hstep : Msp430.step d.chip (.output src) = some s) :
    ({ d with chip := s, phase := .gives left } : Device).Follows ldefault ldsize lddim pre := by
  have hcalls := hd.calls
  have hgiven := hd.given
  rw [Device.At, hphase] at hcalls
  rw [hphase] at hgiven
  cases step_happens hstep with
  | output src hmain =>
    rw [Chip.Done, hmain] at hcalls
    refine ⟨hd.starts, ?_, output_done hcalls⟩
    rw [output_loop_outputs]
    exact (List.append_cons _ _ _).symm.trans hgiven

theorem Device.Follows.step {work : Work} (hd : d.Follows ldefault ldsize lddim pre) (hstep : d.Happens work d') :
    ∃ pre', d'.Follows ldefault ldsize lddim pre' := by
  cases hstep with
  | chip hown hstep => exact ⟨pre, hd.chip hown (step_happens hstep)⟩
  | asks hphase hct hstep => exact ⟨pre, hd.asks hphase hct hstep⟩
  | reads hphase hmain hcloop => exact hd.reads hphase hmain hcloop
  | given hphase =>
    have hcalls := hd.calls
    have hgiven := hd.given
    rw [Device.At, hphase] at hcalls
    rw [hphase] at hgiven
    exact ⟨pre, hd.starts, hgiven, hcalls⟩
  | gives hphase hstep => exact ⟨pre, hd.gives hphase hstep⟩

/-- What was given to `output` and what is left are what the loop has given away. -/
theorem Device.Follows.stdout (hd : d.Follows ldefault ldsize lddim pre) :
    d.chip.outputs.flatten ++ d.phase.left.flatten = d.w.stdout := by
  rw [← List.flatten_append, hd.given]
  rfl

/-- The handlers were given the start of what the calls of `input` returned. -/
theorem Device.At.flatten (hcalls : d.At pre) : ∃ bs, d.chip.inputs.flatten = pre.flatten ++ bs := by
  suffices hinputs : ∃ bss, d.chip.inputs = pre ++ bss by
    obtain ⟨bss, hinputs⟩ := hinputs
    exact ⟨bss.flatten, by rw [hinputs, List.flatten_append]⟩
  have hdone : d.chip.Done pre → ∃ bss, d.chip.inputs = pre ++ bss := by
    intro hdone
    unfold Chip.Done at hdone
    cases hmain : d.chip.main with
    | input dst qty pc =>
      rw [hmain] at hdone
      exact hdone.elim
    | _ =>
      rw [hmain] at hdone
      exact ⟨[], hdone.trans (List.append_nil pre).symm⟩
  unfold Device.At at hcalls
  cases hphase : d.phase with
  | asks =>
    rw [hphase] at hcalls
    exact hdone hcalls
  | gives left =>
    rw [hphase] at hcalls
    exact hdone hcalls
  | reads =>
    rw [hphase, Chip.Reading] at hcalls
    cases hmain : d.chip.main with
    | rest =>
      rw [hmain] at hcalls
      obtain ⟨bs, hinputs, -⟩ := hcalls.2
      exact ⟨[bs], hinputs⟩
    | input dst qty pc =>
      rw [hmain] at hcalls
      exact ⟨[], hcalls.2.1.trans (List.append_nil pre).symm⟩
    | output src bytes pc =>
      rw [hmain] at hcalls
      exact hcalls.2.elim

theorem main_follows : (main ldefault ldsize lddim).Follows ldefault ldsize lddim [] where
  starts _ := ⟨[], .start⟩
  given := rfl
  calls := rfl

theorem device_follows {h : List Tick} (hrun : Run device (main ldefault ldsize lddim) h d) :
    ∃ pre, d.Follows ldefault ldsize lddim pre :=
  hrun.inv (fun _ d => ∃ pre, d.Follows ldefault ldsize lddim pre) ⟨[], main_follows⟩ fun _ _ ⟨_, hd⟩ hok =>
    hd.step (device_happens hok)

theorem device_transmits {h : List Tick} (hrun : Run device (main ldefault ldsize lddim) h d)
    (harmed : Always (fun h t => t.act = .txdo → ¬Armed h) (h.filterMap Tick.step)) : Transmits (h.filterMap Tick.step) d.chip := by
  have hchip : Run chip {} (h.filterMap Tick.step) d.chip := device_chip hrun
  exact hchip.inv_always Transmits ⟨⟨0, .empty⟩, False.elim, nofun⟩
    (fun h t hs hok hk => step_transmits hs (step_happens hok) hk) harmed

/-- Where nothing is stored and not sent, everything that `output` was given was sent. -/
theorem Sends.all {w : Ring} {sent out : List UInt8} {n : ℕ} (h : Sends w sent out [] .wait n) (hqty : w.qty = 0) : sent = out := by
  have hle := List.drop_eq_nil_iff.mp h.pending
  have hcount := h.qty
  rw [hqty] at hcount
  exact h.order.eq_of_length_le (hle.trans (hcount.symm.trans (Nat.zero_add _)).le)

instance Armed.decidable : (h : List Step) → Decidable (Armed h)
  | [] => isFalse id
  | t :: h =>
    have := Armed.decidable h
    inferInstanceAs (Decidable (t.Does .enable ∧ t.s.w.qty = 0 ∨ ¬t.Does .raise ∧ Armed h))

/-- While the rings are in order, `input` has returned the start of what was received, and what goes out is the start of what
    the server gives away after it has read this, whatever comes next: all of it, where the server asks for more and the ring is
    empty. -/
theorem device_starts {h : List Tick} (hrun : Run device (main ldefault ldsize lddim) h d)
    (hroom : Always (fun _ t => t.s'.received.length ≤ t.s'.copied + 16) (h.filterMap Tick.step))
    (harmed : Always (fun h t => t.act = .txdo → ¬Armed h) (h.filterMap Tick.step)) :
    d.chip.got <+: d.chip.received ∧ ∀ more, ∃ h' s,
      Starts ldefault ldsize lddim (d.chip.inputs.flatten ++ more) h' s ∧ d.chip.sent <+: s.2.stdout ∧
      (d.phase = .asks → d.chip.main = .rest → d.chip.w.qty = 0 → s = (d.ct, d.w.unread ⟨more, false⟩) ∧ d.chip.sent = s.2.stdout) := by
  have hchip : Run chip {} (h.filterMap Tick.step) d.chip := device_chip hrun
  obtain ⟨n, hsends⟩ := (device_transmits hrun harmed).sends
  obtain ⟨pre, hd⟩ := device_follows hrun
  refine ⟨(received_in_order hchip hroom).1, fun more => ?_⟩
  obtain ⟨bs, hinputs⟩ := hd.calls.flatten
  obtain ⟨h', hrun'⟩ := hd.starts (bs ++ more)
  rw [← List.append_assoc, ← hinputs] at hrun'
  refine ⟨h', _, hrun', hsends.order.trans ⟨d.phase.left.flatten, hd.stdout⟩, fun hphase hmain hqty => ?_⟩
  have hgiven := hd.stdout
  have hcalls := hd.calls
  rw [hphase, Phase.left, List.flatten_nil, List.append_nil] at hgiven
  rw [Device.At, hphase, Chip.Done, hmain] at hcalls
  rw [hmain] at hsends
  rw [hcalls] at hinputs
  rw [List.self_eq_append_right.mp hinputs]
  exact ⟨rfl, (hsends.all hqty).trans hgiven⟩

/-- A byte that is received while `_cget` waits for it, and returned. -/
def delivers (b : UInt8) : List Work := .chip (.rxdo b) :: List.replicate 8 (.chip .stmt)

/-- A state is received, and its answer goes out. -/
def answered : List Work :=
  [.start] ++ delivers 8 ++ [.start, .start] ++
  [.start] ++ delivers 255 ++ [.start, .start] ++
  [.start] ++ [0, 1, 2, 3, 4, 5, 6, 7].flatMap delivers ++ [.start, .start] ++ List.replicate 8 (.chip .stmt) ++
    [.chip .txdo, .start]

/-- The state of a player that has not joined is answered with a ping. -/
theorem device_starts_ping : ∃ (h : List Tick) (d : Device), Run device (main (fun _ => 0) 0 {}) h d ∧
    d.chip.received = [8, 255, 0, 1, 2, 3, 4, 5, 6, 7] ∧ d.chip.sent = [1] ∧ ∀ more, ∃ h' s,
      Starts (fun _ => 0) 0 {} (d.chip.inputs.flatten ++ more) h' s ∧ s.2.stdout = [1] := by
  have hrun := works_run (main (fun _ => 0) 0 {}) answered
  have hstarts := (device_starts hrun (by decide +kernel) (by decide +kernel)).2
  refine ⟨_, _, hrun, by decide +kernel, by decide +kernel, fun more => ?_⟩
  obtain ⟨h', s, hrun', -, hall⟩ := hstarts more
  exact ⟨h', s, hrun', (hall rfl rfl (by decide +kernel)).2.symm.trans (by decide +kernel)⟩

end Runs

end ClassicX.Msp430
