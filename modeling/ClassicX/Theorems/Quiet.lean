import ClassicX.Theorems.Device
import ClassicX.Theorems.Wakeups

/-! The microcontroller stands still only when it has answered everything: where nothing can happen before the next byte is
received, all that was received was read but for a part of a field, and all that the server gives away was sent. -/

namespace ClassicX.Msp430
open Runs (Run Always)

/-! ### Interrupts -/

/-- Between `_DINT` and `_EINT`. -/
def Main.masked : Main → Bool
  | .input _ _ (.lower _) => true
  | .input _ _ (.eint _) => true
  | .output _ _ .raise => true
  | .output _ _ .eint => true
  | _ => false

/-- The byte is counted, and the interrupt is still to be enabled for it. -/
def Main.counted : Main → Bool
  | .output _ _ .eint => true
  | .output _ _ .enable => true
  | _ => false

/-- Interrupts are disabled between `_DINT` and `_EINT` only, and the interrupt of the transmitter is enabled while there are
    bytes to be sent. -/
structure Rouses (s : Chip) : Prop where
  gie : s.gie = !s.main.masked
  txie : s.main.counted = false → s.w.qty ≠ 0 → s.txie = true

section Chip
variable {s s' : Chip} {act : Act}

theorem input_rouses {dst : List UInt8} {qty : ℕ} (hgie : s.gie = true) (htxie : s.w.qty ≠ 0 → s.txie = true) :
    Rouses (input.loop s dst qty) := by
  unfold input.loop
  split
  · exact ⟨hgie, fun _ => htxie⟩
  · exact ⟨hgie, fun _ => htxie⟩

theorem output_rouses {src : List UInt8} (hgie : s.gie = true) (htxie : s.w.qty ≠ 0 → s.txie = true) :
    Rouses (output.loop s src) := by
  cases src with
  | nil => exact ⟨hgie, fun _ => htxie⟩
  | cons src bytes => exact ⟨hgie, fun _ => htxie⟩

theorem cget_rouses {dst : List UInt8} {qty : ℕ} {pc : Cget} (hs : Rouses s) (hmain : s.main = .input dst qty pc) :
    Rouses (cget s dst qty pc) := by
  have hgie := hs.gie
  have htxie := hs.txie
  rw [hmain] at hgie htxie
  cases pc with
  | test =>
    refine ⟨?_, fun _ => htxie rfl⟩
    simp only [cget]
    split <;> exact hgie
  | ret cg => exact input_rouses hgie (htxie rfl)
  | dint cg => exact ⟨rfl, fun _ => htxie rfl⟩
  | eint cg => exact ⟨rfl, fun _ => htxie rfl⟩
  | _ => exact ⟨hgie, fun _ => htxie rfl⟩

theorem cput_rouses {src : UInt8} {bytes : List UInt8} {pc : Cput} (hs : Rouses s) (hmain : s.main = .output src bytes pc) :
    Rouses (cput s src bytes pc) := by
  have hgie := hs.gie
  have htxie := hs.txie
  rw [hmain] at hgie htxie
  cases pc with
  | test =>
    refine ⟨?_, fun _ => htxie rfl⟩
    simp only [cput]
    split <;> exact hgie
  | dint => exact ⟨rfl, fun _ => htxie rfl⟩
  | raise => exact ⟨hgie, fun h => by cases h⟩
  | eint => exact ⟨rfl, fun h => by cases h⟩
  | enable => exact output_rouses (s := { s with txie := true }) hgie fun _ => rfl
  | _ => exact ⟨hgie, fun _ => htxie rfl⟩

theorem step_rouses (hs : Rouses s) (hstep : Happens s act s') : Rouses s' := by
  cases hstep with
  | input qty hmain =>
    have hgie := hs.gie
    have htxie := hs.txie
    rw [hmain] at hgie htxie
    exact input_rouses hgie (htxie rfl)
  | output src hmain =>
    have hgie := hs.gie
    have htxie := hs.txie
    rw [hmain] at hgie htxie
    exact output_rouses (s := { s with outputs := s.outputs ++ [src] }) hgie (htxie rfl)
  | cget _ hmain => exact cget_rouses hs hmain
  | cput _ hmain => exact cput_rouses hs hmain
  | rxdo rxbuf _ => exact ⟨hs.gie, hs.txie⟩
  | txdo _ htxie _ => exact ⟨hs.gie, fun _ hqty => (if_neg hqty).trans htxie⟩
  | idle => exact ⟨hs.gie, hs.txie⟩

/-- Where `_txdo` cannot run though it could, there is nothing to be sent. -/
theorem txdo_none (hs : Rouses s) (hfree : s.free = true) (hmasked : s.main.masked = false) (hcounted : s.main.counted = false)
    (htxdo : step s .txdo = none) : s.w.qty = 0 := by
  have hgie := hs.gie
  rw [hmasked] at hgie
  by_contra hqty
  have hruns : step s .txdo = some (txdo s) := if_pos ⟨hgie, hs.txie hcounted hqty, hfree⟩
  rw [htxdo] at hruns
  cases hruns

/-- Where the main program sleeps, and `_txdo` cannot run, it waits for a byte. -/
theorem asleep_waits {h : List Step} (hs : Rouses s) (hwakes : Wakes h s s.main.wait) (hasleep : s.asleep = true)
    (hfree : s.free = true) (htxdo : step s .txdo = none) : s.r.qty = 0 ∧ ∃ dst qty, s.main = .input dst qty .test := by
  have hawake : s.asleep = false → False := fun h => absurd hasleep (Bool.eq_false_iff.mp h)
  cases hmain : s.main with
  | rest =>
    rw [hmain] at hwakes
    exact (hawake hwakes).elim
  | input dst qty pc =>
    rw [hmain] at hwakes
    cases pc with
    | test => exact ⟨hwakes hasleep, dst, qty, rfl⟩
    | lpm0 => exact (hawake hwakes.1).elim
    | _ => exact (hawake hwakes).elim
  | output src bytes pc =>
    rw [hmain] at hwakes
    cases pc with
    | test =>
      have hfull : s.w.qty = 16 := hwakes hasleep
      have hempty := txdo_none hs hfree (by rw [hmain]; rfl) (by rw [hmain]; rfl) htxdo
      rw [hempty] at hfull
      cases hfull
    | lpm0 => exact (hawake hwakes.1).elim
    | _ => exact (hawake hwakes).elim

/-- Where the main program cannot go on, it does nothing or sleeps. -/
theorem stmt_none (h : step s .stmt = none) : s.main = .rest ∨ s.asleep = true := by
  cases hasleep : s.asleep with
  | true => exact Or.inr rfl
  | false =>
    refine Or.inl ?_
    have hno : ¬s.asleep = true := Bool.eq_false_iff.mp hasleep
    have h := (if_neg hno).symm.trans h
    cases hmain : s.main with
    | rest => rfl
    | _ =>
      rw [hmain] at h
      cases h

end Chip

/-! ### Runs -/

/-- Nothing can happen before the next byte is received: neither the main program nor the transmitter goes on. -/
structure Device.Quiet (d : Device) : Prop where
  free : d.chip.free = true
  stmt : d.step (.chip .stmt) = none
  txdo : d.step (.chip .txdo) = none
  start : d.step .start = none

section Runs
variable {ldefault : Ptr} {ldsize : Int16} {lddim : Mcvec} {d : Device} {pre : List (List UInt8)}

/-- Where a device stands still: the server has ended, or its handler comes to a step that is not defined, or `_cget` waits
    for a byte. -/
inductive Device.Stands (d : Device) : Prop
  | ended (hmain : d.chip.main = .rest) (hphase : d.phase = .asks) (hct : d.ct = .invalid)
  | stuck (hmain : d.chip.main = .rest) (hphase : d.phase = .reads)
      (hcloop : cloop (d.w.unread ⟨d.chip.inputs.getLastD [], false⟩) d.ct = none)
  | waits {dst : List UInt8} {qty : ℕ} (hmain : d.chip.main = .input dst qty .test) (hphase : d.phase = .reads)
      (hqty : d.chip.r.qty = 0)

theorem Device.Quiet.chip {act : Act} (hown : act.own = true) (h : d.step (.chip act) = none) : Msp430.step d.chip act = none :=
  Option.map_eq_none_iff.mp ((if_pos hown).symm.trans h)

/-- Where the main program does nothing, `start` goes on unless it has ended, or cannot. -/
theorem rest_stands (hmain : d.chip.main = .rest) (hstart : d.step .start = none) : d.Stands := by
  cases hphase : d.phase with
  | asks =>
    refine .ended hmain hphase (by_contra fun hct => ?_)
    simp only [Device.step, hphase, if_neg hct, Msp430.step, if_pos hmain] at hstart
    cases hstart
  | reads =>
    simp only [Device.step, hphase, if_pos hmain, Option.map_eq_none_iff] at hstart
    exact .stuck hmain hphase hstart
  | gives left =>
    cases left with
    | nil =>
      simp only [Device.step, hphase] at hstart
      cases hstart
    | cons src left =>
      simp only [Device.step, hphase, Msp430.step, if_pos hmain] at hstart
      cases hstart

theorem quiet_stands {h : List Step} (hd : d.Follows ldefault ldsize lddim pre) (hrouses : Rouses d.chip)
    (hwakes : Wakes h d.chip d.chip.main.wait) (hquiet : d.Quiet) : d.Stands := by
  have htxdo : Msp430.step d.chip .txdo = none := Device.Quiet.chip rfl hquiet.txdo
  rcases stmt_none (Device.Quiet.chip rfl hquiet.stmt) with hmain | hasleep
  · exact rest_stands hmain hquiet.start
  · obtain ⟨hqty, dst, qty, hmain⟩ := asleep_waits hrouses hwakes hasleep hquiet.free htxdo
    refine .waits hmain ?_ hqty
    have hcalls := hd.calls
    unfold Device.At Chip.Done at hcalls
    cases hphase : d.phase with
    | reads => rfl
    | _ =>
      rw [hphase, hmain] at hcalls
      exact hcalls.elim

/-- No answer is being given. -/
theorem Device.Stands.silent (h : d.Stands) : d.phase.left = [] ∧ d.chip.main.left = [] ∧ d.chip.main.put = .wait ∧
    d.chip.main.masked = false ∧ d.chip.main.counted = false := by
  cases h with
  | ended hmain hphase _ =>
    rw [hmain, hphase]
    exact ⟨rfl, rfl, rfl, rfl, rfl⟩
  | stuck hmain hphase _ =>
    rw [hmain, hphase]
    exact ⟨rfl, rfl, rfl, rfl, rfl⟩
  | waits hmain hphase _ =>
    rw [hmain, hphase]
    exact ⟨rfl, rfl, rfl, rfl, rfl⟩

/-- Where the device stands still, everything that the server has given away was sent. -/
theorem stands_sent {h : List Step} (hd : d.Follows ldefault ldsize lddim pre) (hrouses : Rouses d.chip)
    (htransmits : Transmits h d.chip) (hquiet : d.Quiet) (hstands : d.Stands) : d.chip.sent = d.w.stdout := by
  obtain ⟨hleft, hmain, hput, hmasked, hcounted⟩ := hstands.silent
  obtain ⟨n, hsends⟩ := htransmits.sends
  have hgiven := hd.stdout
  rw [hleft, List.flatten_nil, List.append_nil] at hgiven
  rw [hmain, hput] at hsends
  exact (hsends.all (txdo_none hrouses hquiet.free hmasked hcounted (Device.Quiet.chip rfl hquiet.txdo))).trans hgiven

/-- What is left of what was received, where the device stands still. -/
theorem stands_left (hd : d.Follows ldefault ldsize lddim pre) (horder : d.chip.got <+: d.chip.received)
    (hring : d.chip.main.got = .wait → d.chip.received = d.chip.got ++ d.chip.r.bytes) (hstands : d.Stands) :
    ∃ more, d.chip.received = pre.flatten ++ more ∧ (d.ct = .invalid ∨ more.length < mcctlen d.w.z.session d.ct ∨
      cloop (d.w.unread ⟨more, false⟩) d.ct = none) := by
  have hcalls := hd.calls
  cases hstands with
  | ended hmain hphase hct =>
    obtain ⟨bs, hinputs⟩ := hcalls.flatten
    obtain ⟨more, hmore⟩ := horder
    rw [← hmore, Chip.got, hinputs, List.append_assoc, List.append_assoc]
    exact ⟨_, rfl, Or.inl hct⟩
  | stuck hmain hphase hcloop =>
    rw [Device.At, hphase, Chip.Reading, hmain] at hcalls
    obtain ⟨hct, bs, hinputs, hlen⟩ := hcalls
    have hasks : mcctlen d.w.z.session d.ct = bs.length := by
      have hpos := mcctlen_nonneg d.w.z.session hct
      omega
    obtain ⟨more, hmore⟩ := horder
    rw [hinputs, List.getLastD_concat] at hcloop
    rw [← hmore, Chip.got, hmain, hinputs, List.flatten_append, List.flatten_singleton, List.append_assoc, List.append_assoc]
    refine ⟨_, rfl, Or.inr (Or.inr ?_)⟩
    rw [unread_cloop hasks, hcloop]
    rfl
  | @waits dst qty hmain hphase hqty =>
    rw [Device.At, hphase, Chip.Reading, hmain] at hcalls
    obtain ⟨hct, hinputs, hpos, hlen⟩ := hcalls
    have hbytes : d.chip.r.bytes = [] := by
      rw [Ring.bytes, hqty]
      rfl
    rw [hmain] at hring
    rw [hring rfl, hbytes, List.append_nil, Chip.got, hmain, hinputs]
    refine ⟨dst, rfl, Or.inr (Or.inl ?_)⟩
    have hnonneg := mcctlen_nonneg d.w.z.session hct
    omega

instance Undisturbed.decidable (h : List Step) (t : Step) : Decidable (Undisturbed h t) := by
  unfold Undisturbed
  split <;> infer_instance

/-- Where the device stands still, everything that the server has given away was sent, interrupts are enabled, and the server is
    where a run of `start` stands still that has everything as its input that was received. -/
theorem quiet_settles {h : List Tick} (hrun : Run device (main ldefault ldsize lddim) h d)
    (hroom : Always (fun _ t => t.s'.received.length ≤ t.s'.copied + 16) (h.filterMap Tick.step))
    (harmed : Always (fun h t => t.act = .txdo → ¬Armed h) (h.filterMap Tick.step))
    (hwoken : Always Undisturbed (h.filterMap Tick.step)) (hquiet : d.Quiet) :
    d.chip.sent = d.w.stdout ∧ d.chip.gie = true ∧ ∃ h' more,
      Starts ldefault ldsize lddim d.chip.received h' (d.ct, d.w.unread ⟨more, false⟩) ∧
      (d.ct = .invalid ∨ more.length < mcctlen d.w.z.session d.ct ∨ cloop (d.w.unread ⟨more, false⟩) d.ct = none) := by
  have hchip : Run chip {} (h.filterMap Tick.step) d.chip := device_chip hrun
  have hrouses : Rouses d.chip := hchip.inv (fun _ s => Rouses s) ⟨rfl, nofun⟩ fun _ t hs hok => step_rouses hs (step_happens hok)
  have hwakes : Wakes (h.filterMap Tick.step) d.chip d.chip.main.wait := hchip.inv_always (fun h s => Wakes h s s.main.wait) rfl
    (fun h t hs hok hk => step_wakes hs (step_happens hok) hk) hwoken
  obtain ⟨pre, hd⟩ := device_follows hrun
  have hstands := quiet_stands hd hrouses hwakes hquiet
  obtain ⟨horder, hring⟩ := received_in_order hchip hroom
  obtain ⟨more, hreceived, hend⟩ := stands_left hd horder (fun hwait => (hring hwait).1) hstands
  obtain ⟨h', hrun'⟩ := hd.starts more
  rw [← hreceived] at hrun'
  obtain ⟨-, -, -, hmasked, -⟩ := hstands.silent
  have hgie := hrouses.gie
  rw [hmasked] at hgie
  exact ⟨stands_sent hd hrouses (device_transmits hrun harmed) hquiet hstands, hgie, h', more, hrun', hend⟩

/-- Where the device stands still, it has sent what a run of `start` gives away on what was received, and there is nothing more
    for this run to do: it has ended, or has too few bytes left for a field, or comes to a step that is not defined. -/
theorem device_quiet {h : List Tick} (hrun : Run device (main ldefault ldsize lddim) h d)
    (hroom : Always (fun _ t => t.s'.received.length ≤ t.s'.copied + 16) (h.filterMap Tick.step))
    (harmed : Always (fun h t => t.act = .txdo → ¬Armed h) (h.filterMap Tick.step))
    (hwoken : Always Undisturbed (h.filterMap Tick.step)) (hquiet : d.Quiet) :
    ∃ h' w, Starts ldefault ldsize lddim d.chip.received h' (d.ct, w) ∧ w.stdin.eof = false ∧ d.chip.sent = w.stdout ∧
      (d.ct = .invalid ∨ w.stdin.rest.length < mcctlen w.z.session d.ct ∨ cloop w d.ct = none) := by
  obtain ⟨hsent, -, h', more, hrun', hend⟩ := quiet_settles hrun hroom harmed hwoken hquiet
  exact ⟨h', _, hrun', rfl, hsent, hend⟩

/-- The state of a player that has not joined was answered, and `_cget` waits for the next packet. -/
theorem device_quiet_ping : ∃ (h : List Tick) (d : Device), Run device (main (fun _ => 0) 0 {}) h d ∧ d.Quiet ∧
    d.chip.received = [8, 255, 0, 1, 2, 3, 4, 5, 6, 7] ∧ d.chip.sent = [1] ∧ ∃ h' w,
      Starts (fun _ => 0) 0 {} d.chip.received h' (d.ct, w) ∧ d.chip.sent = w.stdout := by
  have hrun := works_run (main (fun _ => 0) 0 {}) (answered ++ [.chip .idle, .start, .chip .stmt, .chip .stmt])
  have hquiet : (works (main (fun _ => 0) 0 {}) (answered ++ [.chip .idle, .start, .chip .stmt, .chip .stmt])).2.Quiet :=
    ⟨by decide +kernel, rfl, rfl, rfl⟩
  obtain ⟨h', w, hrun', -, hsent, -⟩ := device_quiet hrun (by decide +kernel) (by decide +kernel) (by decide +kernel) hquiet
  exact ⟨_, _, hrun, hquiet, by decide +kernel, by decide +kernel, h', w, hrun', hsent⟩

end Runs

end ClassicX.Msp430
