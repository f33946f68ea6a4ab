import ClassicX.Server.Board
import ClassicX.Theorems.Quiet
import ClassicX.Theorems.Relay

/-! A client, the bridge, and the server on the microcontroller: what the client is sent is what a run of `start` gives away, in
every order of the steps of all of them. -/

namespace ClassicX.Msp430
open Runs (Run Always)

/-! ### Bytes -/

section Bytes
variable {s s' : Chip} {act : Act}

/-- What a step does to the bytes that were received and sent: a byte is received, or none is. -/
def Carried (s : Chip) (act : Act) (s' : Chip) : Prop :=
  (∃ rxbuf, act = .rxdo rxbuf ∧ s'.received = s.received ++ [rxbuf] ∧ s'.sent = s.sent) ∨
  s'.received = s.received ∧ s.sent <+: s'.sent

theorem Carried.same (hreceived : s'.received = s.received) (hsent : s'.sent = s.sent) : Carried s act s' :=
  Or.inr ⟨hreceived, hsent ▸ List.prefix_refl _⟩

theorem input_carried (dst : List UInt8) (qty : ℕ) : Carried s act (input.loop s dst qty) := by
  unfold input.loop
  split <;> exact .same rfl rfl

theorem step_carried (hstep : Happens s act s') : Carried s act s' := by
  cases hstep with
  | input qty _ => exact input_carried [] qty
  | output src _ => cases src <;> exact .same rfl rfl
  | @cget dst qty pc _ _ =>
    cases pc with
    | ret cg => exact input_carried _ _
    | _ => exact .same rfl rfl
  | @cput src bytes pc _ _ =>
    cases pc with
    | enable => cases bytes <;> exact .same rfl rfl
    | _ => exact .same rfl rfl
  | rxdo rxbuf _ => exact Or.inl ⟨rxbuf, rfl, rfl, rfl⟩
  | txdo _ _ _ => exact Or.inr ⟨rfl, List.prefix_append _ _⟩
  | idle => exact .same rfl rfl

theorem receive_carried {d d' : Device} {rxbuf : UInt8} (h : d.step (.chip (.rxdo rxbuf)) = some d') :
    d'.chip.received = d.chip.received ++ [rxbuf] ∧ d'.chip.sent = d.chip.sent := by
  cases device_happens h with
  | chip hown hstep =>
    cases step_happens hstep with
    | rxdo rxbuf _ => exact ⟨rfl, rfl⟩

theorem work_carried {d d' : Device} {work : Work} (hown : work.receives = false) (h : d.step work = some d') :
    d'.chip.received = d.chip.received ∧ d.chip.sent <+: d'.chip.sent := by
  have hcarried : ∀ {act : Act} {s : Chip}, (∀ rxbuf, act ≠ .rxdo rxbuf) → Msp430.step d.chip act = some s →
      s.received = d.chip.received ∧ d.chip.sent <+: s.sent := by
    intro act s hact hstep
    rcases step_carried (step_happens hstep) with ⟨rxbuf, heq, -⟩ | hcarried
    · exact absurd heq (hact rxbuf)
    · exact hcarried
  cases device_happens h with
  | @chip act s _ hstep =>
    refine hcarried (fun rxbuf heq => ?_) hstep
    rw [heq] at hown
    cases hown
  | asks _ _ hstep => exact hcarried (fun _ heq => by cases heq) hstep
  | reads _ _ _ => exact ⟨rfl, List.prefix_refl _⟩
  | given _ => exact ⟨rfl, List.prefix_refl _⟩
  | gives _ hstep => exact hcarried (fun _ heq => by cases heq) hstep

end Bytes

/-! ### Runs -/

/-- What was written to the serial port was received, or is on the line, and what was transmitted has come over the serial
    port. -/
structure Carries (asked : List (List UInt8)) (s : Board) : Prop where
  takes : ∃ got : List (List UInt8), asked = got ++ s.asked ∧ got.flatten = s.device.chip.received ++ s.line
  gives : s.device.chip.sent = s.passed

section Runs
variable {ldefault : Ptr} {ldsize : Int16} {lddim : Mcvec} {asked : List (List UInt8)} {s s' : Board} {act : Board.Act}
  {h : List Shift}

theorem request_takes (hstep : s.step .request = some s') : ∃ inbuf left, s.outbuf = none ∧ s.asked = inbuf :: left ∧
    (inbuf = [] ∧ s' = { s with asked := left } ∨
      inbuf ≠ [] ∧ s' = { s with asked := left, line := s.line ++ inbuf, outbuf := some [] }) := by
  rw [Board.step] at hstep
  split at hstep
  case h_2 => cases hstep
  case h_1 inbuf left houtbuf hleft =>
    refine ⟨inbuf, left, houtbuf, hleft, ?_⟩
    by_cases hnil : inbuf = []
    · rw [if_pos hnil] at hstep
      exact Or.inl ⟨hnil, (Option.some.inj hstep).symm⟩
    · rw [if_neg hnil] at hstep
      exact Or.inr ⟨hnil, (Option.some.inj hstep).symm⟩

theorem board_device {s₀ : Board} (hrun : Run board s₀ h s) : Run device s₀.device (h.filterMap Shift.tick) s.device := by
  refine hrun.project Board.device Shift.tick fun t hok => ?_
  obtain ⟨s, act, s'⟩ := t
  have hstep : s.step act = some s' := hok
  cases act with
  | request =>
    obtain ⟨inbuf, left, -, -, ⟨-, rfl⟩ | ⟨-, rfl⟩⟩ := request_takes hstep
    · exact Or.inl ⟨rfl, rfl⟩
    · exact Or.inl ⟨rfl, rfl⟩
  | receive =>
    rw [Board.step] at hstep
    cases hline : s.line with
    | nil =>
      rw [hline] at hstep
      cases hstep
    | cons rxbuf line =>
      rw [hline] at hstep
      obtain ⟨d, hd, rfl⟩ := Option.map_eq_some_iff.mp hstep
      rw [Shift.tick, hline]
      exact Or.inr ⟨_, rfl, rfl, rfl, hd⟩
  | work work =>
    rw [Board.step, Option.ite_none_left_eq_some] at hstep
    obtain ⟨d, hd, rfl⟩ := Option.map_eq_some_iff.mp hstep.2
    exact Or.inr ⟨_, rfl, rfl, rfl, hd⟩
  | read n =>
    obtain ⟨port, -, rfl⟩ := Option.map_eq_some_iff.mp hstep
    exact Or.inl ⟨rfl, rfl⟩

theorem step_carries (hs : Carries asked s) (hstep : s.step act = some s') : Carries asked s' := by
  obtain ⟨got, hasked, hgot⟩ := hs.takes
  have hgives := hs.gives
  cases act with
  | request =>
    obtain ⟨inbuf, left, houtbuf, hleft, hs'⟩ := request_takes hstep
    rw [hleft, List.append_cons] at hasked
    rcases hs' with ⟨hnil, rfl⟩ | ⟨-, rfl⟩
    · refine ⟨⟨got ++ [inbuf], hasked, ?_⟩, hgives⟩
      rw [List.flatten_concat, hnil, List.append_nil]
      exact hgot
    · rw [Port.passed, houtbuf] at hgives
      refine ⟨⟨got ++ [inbuf], hasked, ?_⟩, hgives⟩
      rw [List.flatten_concat, hgot, List.append_assoc]
  | receive =>
    cases hline : s.line with
    | nil =>
      simp only [Board.step, hline] at hstep
      cases hstep
    | cons rxbuf line =>
      simp only [Board.step, hline] at hstep
      obtain ⟨d, hd, rfl⟩ := Option.map_eq_some_iff.mp hstep
      obtain ⟨hreceived, hsent⟩ := receive_carried hd
      refine ⟨⟨got, hasked, ?_⟩, hsent.trans hgives⟩
      rw [hgot, hline, hreceived]
      exact List.append_cons _ _ _
  | work work =>
    simp only [Board.step, Option.ite_none_left_eq_some] at hstep
    obtain ⟨hown, hstep⟩ := hstep
    obtain ⟨d, hd, rfl⟩ := Option.map_eq_some_iff.mp hstep
    obtain ⟨hreceived, out, hsent⟩ := work_carried (Bool.eq_false_of_not_eq_true hown) hd
    refine ⟨⟨got, hasked, hreceived.symm ▸ hgot⟩, ?_⟩
    rw [← hsent, List.drop_left, passed_grows, ← hgives]
  | read n =>
    obtain ⟨port, hport, rfl⟩ := Option.map_eq_some_iff.mp hstep
    exact ⟨⟨got, hasked, hgot⟩, hgives.trans (passed_read hport).symm⟩

theorem board_carries (hrun : Run board (.first ldefault ldsize lddim asked) h s) : Carries asked s :=
  hrun.inv (fun _ s => Carries asked s) ⟨⟨[], rfl, rfl⟩, rfl⟩ fun _ _ hs hok => step_carries hs hok

/-- What was sent to the client, with a byte 1 more for each answer, and is about to be sent, is the start of what a run of `start`
    gives away that has the requests that were taken as its input. -/
theorem board_relays (hrun : Run board (.first ldefault ldsize lddim asked) h s)
    (hroom : Always (fun _ t => t.s'.received.length ≤ t.s'.copied + 16) (chipSteps h))
    (harmed : Always (fun h t => t.act = .txdo → ¬Armed h) (chipSteps h)) :
    ∃ (got : List (List UInt8)) (h' : List Iter) (t : Mcctyp × World), asked = got ++ s.asked ∧
      Starts ldefault ldsize lddim got.flatten h' t ∧
      s.sent.flatMap (· ++ [1]) ++ s.outbuf.getD [] ++ s.serial <+: t.2.stdout := by
  have hdevice : Run device (main ldefault ldsize lddim) (h.filterMap Shift.tick) s.device := board_device hrun
  obtain ⟨got, hasked, hgot⟩ := (board_carries hrun).takes
  have hgives : s.device.chip.sent = s.sent.flatMap (· ++ [1]) ++ s.outbuf.getD [] ++ s.serial := (board_carries hrun).gives
  obtain ⟨n, hsends⟩ := (device_transmits hdevice harmed).sends
  obtain ⟨pre, hd⟩ := device_follows hdevice
  obtain ⟨bs, hinputs⟩ := hd.calls.flatten
  -- What the handlers were given is the start of the requests.
  obtain ⟨more, hmore⟩ : pre.flatten <+: got.flatten := by
    have hreceived : s.device.chip.got <+: s.device.chip.received := (received_in_order (device_chip hdevice) hroom).1
    rw [Chip.got, hinputs, List.append_assoc] at hreceived
    exact (List.prefix_append _ _).trans (hreceived.trans ⟨s.line, hgot.symm⟩)
  obtain ⟨h', hrun'⟩ := hd.starts more
  rw [hmore] at hrun'
  exact ⟨got, h', _, hasked, hrun', hgives ▸ hsends.order.trans ⟨s.device.phase.left.flatten, hd.stdout⟩⟩

/-- The steps of the board for those of the device. -/
def Work.onBoard : Work → Board.Act
  | .chip (.rxdo _) => .receive
  | work => .work work

/-- The state of a player that has not joined goes over the line, and its answer comes back. -/
theorem board_relays_ping : ∃ (h : List Shift) (s : Board),
    Run board (.first (fun _ => 0) 0 {} [[8, 255, 0, 1, 2, 3, 4, 5, 6, 7]]) h s ∧ s.sent = [[]] ∧
    ∃ (got : List (List UInt8)) (h' : List Iter) (t : Mcctyp × World), [[8, 255, 0, 1, 2, 3, 4, 5, 6, 7]] = got ++ s.asked ∧
      Starts (fun _ => 0) 0 {} got.flatten h' t ∧
      s.sent.flatMap (· ++ [1]) ++ s.outbuf.getD [] ++ s.serial <+: t.2.stdout := by
  have hrun := Board.steps_run (.first (fun _ => 0) 0 {} [[8, 255, 0, 1, 2, 3, 4, 5, 6, 7]])
    (.request :: answered.map Work.onBoard ++ [.read 1])
  obtain ⟨got, h', t, hasked, hstarts, hsent⟩ := board_relays hrun (by decide +kernel) (by decide +kernel)
  exact ⟨_, _, hrun, by decide +kernel, got, h', t, hasked, hstarts, hsent⟩

/-- Nothing can happen: no request comes in, the line is not read, the microcontroller stands still, and there is nothing to be
    read. -/
structure Board.Quiet (s : Board) : Prop where
  request : s.step .request = none
  receive : s.step .receive = none
  device : s.device.Quiet
  read (n : ℕ) : 0 < n → s.step (.read n) = none

theorem quiet_read (hquiet : s.Quiet) {outbuf : List UInt8} (houtbuf : s.outbuf = some outbuf) : s.serial = [] := by
  by_contra hserial
  have hread : s.toPort.read 1 = none := Option.map_eq_none_iff.mp (hquiet.read 1 one_pos)
  have hreads := port_reads houtbuf (by decide : 1 ≤ READLEN) (List.length_pos_iff.mpr hserial)
  rw [hread] at hreads
  cases hreads

theorem quiet_line (hquiet : s.Quiet) (hgie : s.device.chip.gie = true) : s.line = [] := by
  have hreceive := hquiet.receive
  cases hline : s.line with
  | nil => rfl
  | cons rxbuf line =>
    simp only [Board.step, hline, Device.step, Act.own, Msp430.step, if_pos hgie] at hreceive
    cases hreceive

/-- Where nothing can happen, everything was sent to the client that a run of `start` gives away on the requests that were taken,
    or waits for its end, and this run has nothing more to do. No request is left, unless the bridge waits for the end of an
    answer. -/
theorem board_quiet (hrun : Run board (.first ldefault ldsize lddim asked) h s)
    (hroom : Always (fun _ t => t.s'.received.length ≤ t.s'.copied + 16) (chipSteps h))
    (harmed : Always (fun h t => t.act = .txdo → ¬Armed h) (chipSteps h)) (hwoken : Always Undisturbed (chipSteps h))
    (hquiet : s.Quiet) :
    ∃ (got : List (List UInt8)) (h' : List Iter) (w : World), asked = got ++ s.asked ∧
      Starts ldefault ldsize lddim got.flatten h' (s.device.ct, w) ∧
      s.sent.flatMap (· ++ [1]) ++ s.outbuf.getD [] ++ s.serial = w.stdout ∧
      (s.outbuf = none ∧ s.asked = [] ∨ s.outbuf.isSome ∧ s.serial = []) ∧
      (s.device.ct = .invalid ∨ w.stdin.rest.length < mcctlen w.z.session s.device.ct ∨ cloop w s.device.ct = none) := by
  have hdevice : Run device (main ldefault ldsize lddim) (h.filterMap Shift.tick) s.device := board_device hrun
  obtain ⟨got, hasked, hgot⟩ := (board_carries hrun).takes
  obtain ⟨hsent, hgie, h', more, hrun', hend⟩ := quiet_settles hdevice hroom harmed hwoken hquiet.device
  rw [quiet_line hquiet hgie, List.append_nil] at hgot
  rw [← hgot] at hrun'
  refine ⟨got, h', _, hasked, hrun', (board_carries hrun).gives.symm.trans hsent, ?_, hend⟩
  cases houtbuf : s.outbuf with
  | some outbuf => exact Or.inr ⟨rfl, quiet_read hquiet houtbuf⟩
  | none =>
    refine Or.inl ⟨rfl, ?_⟩
    have hrequest := hquiet.request
    cases hleft : s.asked with
    | nil => rfl
    | cons inbuf left =>
      simp only [Board.step, houtbuf, hleft] at hrequest
      split at hrequest <;> cases hrequest

set_option maxRecDepth 4000 in
/-- The request was answered, and `_cget` waits for the next one. -/
theorem board_quiet_ping : ∃ (h : List Shift) (s : Board),
    Run board (.first (fun _ => 0) 0 {} [[8, 255, 0, 1, 2, 3, 4, 5, 6, 7]]) h s ∧ s.Quiet ∧ s.sent = [[]] ∧
    ∃ (got : List (List UInt8)) (h' : List Iter) (w : World), [[8, 255, 0, 1, 2, 3, 4, 5, 6, 7]] = got ++ s.asked ∧
      Starts (fun _ => 0) 0 {} got.flatten h' (s.device.ct, w) ∧
      s.sent.flatMap (· ++ [1]) ++ s.outbuf.getD [] ++ s.serial = w.stdout := by
  have hrun := Board.steps_run (.first (fun _ => 0) 0 {} [[8, 255, 0, 1, 2, 3, 4, 5, 6, 7]])
    (.request :: answered.map Work.onBoard ++
      [.read 1, .work (.chip .idle), .work (.start), .work (.chip .stmt), .work (.chip .stmt)])
  have hquiet : (Board.steps (.first (fun _ => 0) 0 {} [[8, 255, 0, 1, 2, 3, 4, 5, 6, 7]])
      (.request :: answered.map Work.onBoard ++
        [.read 1, .work (.chip .idle), .work (.start), .work (.chip .stmt), .work (.chip .stmt)])).2.Quiet :=
    ⟨rfl, rfl, ⟨by decide +kernel, rfl, rfl, rfl⟩, fun n _ => rfl⟩
  obtain ⟨got, h', w, hasked, hstarts, hsent, -⟩ := board_quiet hrun (by decide +kernel) (by decide +kernel) (by decide +kernel) hquiet
  exact ⟨_, _, hrun, hquiet, by decide +kernel, got, h', w, hasked, hstarts, hsent⟩

end Runs

end ClassicX.Msp430
