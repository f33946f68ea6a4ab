import ClassicX.Theorems.Device
import ClassicX.Theorems.Wakeups

/-! What the server does on the standard files, it does on the microcontroller, where a byte is received while `_cget` waits for
it, and a byte is transmitted before the next one is stored. The rings are in order all the time then. -/

namespace ClassicX.Msp430
open Relation (ReflTransGen)
open Runs (Run Always)

/-! ### Smooth steps -/

/-- The main program is about to sleep. -/
def Main.dozes : Main → Bool
  | .input _ _ .lpm0 => true
  | .output _ _ .lpm0 => true
  | _ => false

/-- There is room for what was received, the transmitter is enabled with a byte to send, and the main program does not go to
    sleep. -/
structure Step.Smooth (t : Step) : Prop where
  room : t.s'.received.length ≤ t.s'.copied + 16
  armed : t.Does .enable → t.s.w.qty ≠ 0
  awake : t.act = .stmt → t.s.main.dozes = false

theorem smooth_unarmed {h : List Step} (hall : ∀ t ∈ h, t.Smooth) : ¬Armed h := by
  induction h with
  | nil => exact id
  | cons t h ih =>
    obtain ⟨ht, hall⟩ := List.forall_mem_cons.mp hall
    rintro (⟨henable, hqty⟩ | ⟨-, harmed⟩)
    · exact ht.armed henable hqty
    · exact ih hall harmed

theorem smooth_undisturbed {h : List Step} {t : Step} (ht : t.Smooth) : Undisturbed h t := by
  intro hact
  have hawake := ht.awake hact
  cases hmain : t.s.main with
  | rest => trivial
  | input dst qty pc =>
    rw [hmain] at hawake
    cases pc with
    | lpm0 => cases hawake
    | _ => trivial
  | output src bytes pc =>
    rw [hmain] at hawake
    cases pc with
    | lpm0 => cases hawake
    | _ => trivial

/-- A step that is no statement. -/
theorem smooth_other {s s' : Chip} {act : Act} (hact : act ≠ .stmt) (hroom : s'.received.length ≤ s'.copied + 16) :
    Step.Smooth ⟨s, act, s'⟩ where
  room := hroom
  armed h := absurd h.1 hact
  awake h := absurd h hact

/-- Where every step is smooth, the rings are in order, and nobody oversleeps. -/
theorem smooth_always {h : List Step} (hall : ∀ t ∈ h, t.Smooth) :
    Always (fun _ t => t.s'.received.length ≤ t.s'.copied + 16) h ∧ Always (fun h t => t.act = .txdo → ¬Armed h) h ∧
      Always Undisturbed h :=
  ⟨.of_all hall fun _ _ _ ht => ht.room, .of_all hall fun _ _ hall _ _ => smooth_unarmed hall,
    .of_all hall fun _ _ _ ht => smooth_undisturbed ht⟩

/-! ### Bytes -/

/-- A ring that is empty. -/
structure Ring.Clear (r : Ring) : Prop where
  qty : r.qty = 0
  meets : r.frnt = r.back

/-- Nothing is under way but what the main program does, and nothing is to be sent. -/
structure Chip.Calm (s : Chip) : Prop where
  gie : s.gie = true
  txie : s.txie = false
  awake : s.asleep = false
  free : s.free = true
  r : s.r.Clear
  w : s.w.Clear

/-- Smooth steps lead from `s` to `s'`, none of them a call. -/
abbrev Chip.Goes : Chip → Chip → Prop := ReflTransGen (chip.Leads fun t => t.act.own = true ∧ t.Smooth)

section Bytes
variable {s s' : Chip} {dst bytes : List UInt8} {src b : UInt8} {qty : ℕ}

theorem Chip.goes (act : Act) (s₁ : Chip) (hown : act.own = true) (hstep : step s act = some s₁)
    (hsmooth : Step.Smooth ⟨s, act, s₁⟩) (hgoes : s₁.Goes s') : s.Goes s' :=
  .head ⟨⟨s, act, s₁⟩, rfl, rfl, hstep, hown, hsmooth⟩ hgoes

theorem goes_get {pc : Cget} (s₁ : Chip) (hcget : cget s dst qty pc = s₁) (hawake : s.asleep = false)
    (hmain : s.main = .input dst qty pc) (hdozes : s.main.dozes = false) (hroom : s₁.received.length ≤ s₁.copied + 16)
    (hgoes : s₁.Goes s') : s.Goes s' := by
  have hstep : step s .stmt = some s₁ := by
    rw [step, hawake, hmain, ← hcget]
    rfl
  refine Chip.goes .stmt s₁ rfl hstep ⟨hroom, fun henable => ?_, fun _ => hdozes⟩ hgoes
  have hpc : s.main.cput = some .enable := henable.2
  rw [hmain] at hpc
  cases hpc

theorem goes_put {pc : Cput} (s₁ : Chip) (hcput : cput s src bytes pc = s₁) (hawake : s.asleep = false)
    (hmain : s.main = .output src bytes pc) (hdozes : s.main.dozes = false) (hroom : s₁.received.length ≤ s₁.copied + 16)
    (harmed : pc = .enable → s.w.qty ≠ 0) (hgoes : s₁.Goes s') : s.Goes s' := by
  have hstep : step s .stmt = some s₁ := by
    rw [step, hawake, hmain, ← hcput]
    rfl
  refine Chip.goes .stmt s₁ rfl hstep ⟨hroom, fun henable => harmed ?_, fun _ => hdozes⟩ hgoes
  have hpc : s.main.cput = some .enable := henable.2
  rw [hmain] at hpc
  exact Option.some.inj hpc

theorem input_room (h : s.received.length ≤ (s.inputs.flatten ++ dst).length + 16) :
    (input.loop s dst qty).received.length ≤ (input.loop s dst qty).copied + 16 := by
  unfold input.loop
  split
  · have hflatten : (s.inputs ++ [dst]).flatten ++ [] = s.inputs.flatten ++ dst := by simp
    rw [← hflatten] at h
    exact h
  · exact h

/-- A byte that is received when `_cget` waits for it is returned. -/
theorem goes_get_byte (hs : s.Calm) (hreceived : s.received = s.inputs.flatten ++ dst) (b : UInt8) (qty : ℕ) :
    ∃ s', Chip.Goes { s with main := .input dst (qty + 1) .test } (input.loop s' (dst ++ [b]) qty) ∧ s'.Calm ∧
      s'.received = s.received ++ [b] ∧ s'.inputs = s.inputs ∧ s'.sent = s.sent := by
  obtain ⟨⟨buf, frnt, back, count⟩, w, gie, txie, free, asleep, main, received, sent, inputs, outputs⟩ := s
  obtain ⟨hgie, htxie, hawake, hfree, ⟨hqty, hmeets⟩, hw⟩ := hs
  dsimp only at hgie htxie hawake hfree hqty hmeets hw hreceived ⊢
  subst hgie htxie hawake hfree hqty hmeets hreceived
  have hroom : (inputs.flatten ++ dst ++ [b]).length ≤ (inputs.flatten ++ dst).length + 16 := by
    rw [List.length_append, List.length_singleton]
    omega
  have hcopied : (inputs.flatten ++ dst ++ [b]).length ≤ (inputs.flatten ++ dst).length + 1 + 16 := by omega
  have hreturned : (inputs.flatten ++ dst ++ [b]).length ≤ (inputs.flatten ++ (dst ++ [b])).length + 16 := by
    rw [List.append_assoc]
    omega
  have hfront : Function.update buf frnt.toNat b frnt.toNat = b := Function.update_self _ _ _
  -- The ring with the byte, with its slot behind `_rfrnt`, and without it; and `_cget` at `pc` with each of them.
  let r : Ring := ⟨Function.update buf frnt.toNat b, frnt, (frnt + 1) &&& 15, 1⟩
  let r₁ : Ring := { r with frnt := (frnt + 1) &&& 15 }
  let r₂ : Ring := { r₁ with qty := 1 - 1 }
  let get (r : Ring) (gie : Bool) (pc : Cget) : Chip :=
    ⟨r, w, gie, false, true, false, .input dst (qty + 1) pc, inputs.flatten ++ dst ++ [b], sent, inputs, outputs⟩
  have hempty : (1 - 1 : UInt8) = 0 := by decide
  refine ⟨get r₂ true (.ret b), ?_, ⟨rfl, rfl, rfl, rfl, ⟨hempty, rfl⟩, hw⟩, rfl, rfl, rfl⟩
  refine Chip.goes (.rxdo b) (get r true .test) rfl rfl (smooth_other (fun h => by cases h) hroom) ?_
  refine goes_get (get r true .take) rfl rfl rfl rfl hroom ?_
  have htake : cget (get r true .take) dst (qty + 1) .take = get r true (.incr b) :=
    congrArg (fun cg => get r true (.incr cg)) hfront
  refine goes_get (get r true (.incr b)) htake rfl rfl rfl hcopied ?_
  refine goes_get (get { r with frnt := frnt + 1 } true (.wrap b)) rfl rfl rfl rfl hcopied ?_
  refine goes_get (get r₁ true (.dint b)) rfl rfl rfl rfl hcopied ?_
  refine goes_get (get r₁ false (.lower b)) rfl rfl rfl rfl hcopied ?_
  refine goes_get (get r₂ false (.eint b)) rfl rfl rfl rfl hcopied ?_
  refine goes_get (get r₂ true (.ret b)) rfl rfl rfl rfl hcopied ?_
  exact goes_get (input.loop (get r₂ true (.ret b)) (dst ++ [b]) qty) rfl rfl rfl rfl (input_room hreturned) .refl

/-- The main program is at none of the two calls, and has got everything that was received. -/
structure Chip.Idle (s : Chip) : Prop extends s.Calm where
  main : s.main = .rest
  got : s.received = s.inputs.flatten

theorem Chip.Idle.room (hs : s.Idle) : s.received.length ≤ (s.inputs.flatten ++ []).length + 16 := by
  rw [List.append_nil, hs.got]
  omega

/-- `input` returns the bytes that are received after its call. -/
theorem goes_input (bs : List UInt8) (hs : s.Calm) (hreceived : s.received = s.inputs.flatten ++ dst) :
    ∃ s', (input.loop s dst bs.length).Goes s' ∧ s'.Idle ∧ s'.inputs = s.inputs ++ [dst ++ bs] ∧
      s'.received = s.received ++ bs ∧ s'.sent = s.sent := by
  induction bs generalizing s dst with
  | nil =>
    have hgot : s.received = (s.inputs ++ [dst]).flatten := by rw [hreceived, List.flatten_concat]
    rw [List.append_nil, List.append_nil]
    exact ⟨_, .refl, ⟨⟨hs.gie, hs.txie, hs.awake, hs.free, hs.r, hs.w⟩, rfl, hgot⟩, rfl, rfl, rfl⟩
  | cons b bs ih =>
    obtain ⟨s₁, hgoes, hs₁, hreceived₁, hinputs₁, hsent₁⟩ := goes_get_byte hs hreceived b bs.length
    have hgot : s₁.received = s₁.inputs.flatten ++ (dst ++ [b]) := by rw [hreceived₁, hreceived, hinputs₁, List.append_assoc]
    obtain ⟨s', hgoes', hs', hinputs, hreceived', hsent⟩ := ih hs₁ hgot
    refine ⟨s', hgoes.trans hgoes', hs', ?_, ?_, hsent.trans hsent₁⟩
    · rw [hinputs, hinputs₁, List.append_assoc dst]
      rfl
    · rw [hreceived', hreceived₁, List.append_assoc]
      rfl

theorem output_room (h : s.received = s.inputs.flatten) (bytes : List UInt8) :
    (output.loop s bytes).received.length ≤ (output.loop s bytes).copied + 16 := by
  have hroom : s.received.length ≤ (s.inputs.flatten ++ []).length + 16 := by
    rw [List.append_nil, h]
    omega
  cases bytes with
  | nil => exact hroom
  | cons b bytes => exact hroom

/-- A byte that `_cput` stores is transmitted before the next one is stored. -/
theorem goes_put_byte (hs : s.Calm) (hgot : s.received = s.inputs.flatten) (b : UInt8) (bytes : List UInt8) :
    ∃ s', Chip.Goes { s with main := .output b bytes .test } (output.loop s' bytes) ∧ s'.Calm ∧
      s'.received = s'.inputs.flatten ∧ s'.received = s.received ∧ s'.sent = s.sent ++ [b] := by
  obtain ⟨r, ⟨buf, frnt, back, count⟩, gie, txie, free, asleep, main, received, sent, inputs, outputs⟩ := s
  obtain ⟨hgie, htxie, hawake, hfree, hr, ⟨hqty, hmeets⟩⟩ := hs
  dsimp only at hgie htxie hawake hfree hqty hmeets hr hgot ⊢
  subst hgie htxie hawake hfree hqty hmeets hgot
  have hroom : inputs.flatten.length ≤ (inputs.flatten ++ []).length + 16 := by
    rw [List.append_nil]
    omega
  have hfront : Function.update buf frnt.toNat b frnt.toNat = b := Function.update_self _ _ _
  have hcount : (0 + 1 : UInt8) ≠ 0 := by decide
  have hempty : (0 + 1 - 1 : UInt8) = 0 := by decide
  -- The ring with the byte stored, with its slot behind `_wback`, with the byte counted, and without it.
  let w : Ring := ⟨Function.update buf frnt.toNat b, frnt, frnt, 0⟩
  let w₁ : Ring := { w with back := (frnt + 1) &&& 15 }
  let w₂ : Ring := { w₁ with qty := 0 + 1 }
  let w₃ : Ring := { w₁ with frnt := (frnt + 1) &&& 15, qty := 0 + 1 - 1 }
  let put (w : Ring) (gie : Bool) (pc : Cput) : Chip :=
    ⟨r, w, gie, false, true, false, .output b bytes pc, inputs.flatten, sent, inputs, outputs⟩
  let stored (w : Ring) (txie free : Bool) (sent : List UInt8) : Chip :=
    ⟨r, w, true, txie, free, false, .rest, inputs.flatten, sent, inputs, outputs⟩
  have htxdo : txdo (stored w₂ true true sent) = stored w₃ false false (sent ++ [b]) := by
    have hsent : sent ++ [Function.update buf frnt.toNat b frnt.toNat] = sent ++ [b] := by rw [hfront]
    exact (congrArg (fun sent => stored w₃ (if (0 + 1 - 1 : UInt8) = 0 then false else true) false sent) hsent).trans
      (congrArg (fun txie => stored w₃ txie false (sent ++ [b])) (if_pos hempty))
  -- What follows in `output` is not touched by the interrupt.
  have hcput : cput (put w₂ true .enable) b bytes .enable = output.loop (stored w₂ true true sent) bytes := by
    cases bytes <;> rfl
  have hsend : step (output.loop (stored w₂ true true sent) bytes) .txdo =
      some (output.loop (stored w₃ false false (sent ++ [b])) bytes) := by
    rw [← htxdo]
    cases bytes <;> rfl
  have hidle : step (output.loop (stored w₃ false false (sent ++ [b])) bytes) .idle =
      some (output.loop (stored w₃ false true (sent ++ [b])) bytes) := by
    cases bytes <;> rfl
  refine ⟨stored w₃ false true (sent ++ [b]), ?_, ⟨rfl, rfl, rfl, rfl, hr, ⟨hempty, rfl⟩⟩, rfl, rfl, rfl⟩
  refine goes_put (put ⟨buf, frnt, frnt, 0⟩ true .store) rfl rfl rfl rfl hroom (fun h => by cases h) ?_
  refine goes_put (put w true .incr) rfl rfl rfl rfl hroom (fun h => by cases h) ?_
  refine goes_put (put { w with back := frnt + 1 } true .wrap) rfl rfl rfl rfl hroom (fun h => by cases h) ?_
  refine goes_put (put w₁ true .dint) rfl rfl rfl rfl hroom (fun h => by cases h) ?_
  refine goes_put (put w₁ false .raise) rfl rfl rfl rfl hroom (fun h => by cases h) ?_
  refine goes_put (put w₂ false .eint) rfl rfl rfl rfl hroom (fun h => by cases h) ?_
  refine goes_put (put w₂ true .enable) rfl rfl rfl rfl hroom (fun h => by cases h) ?_
  refine goes_put (output.loop (stored w₂ true true sent) bytes) hcput rfl rfl rfl (output_room rfl bytes) (fun _ => hcount) ?_
  refine Chip.goes .txdo _ rfl hsend (smooth_other (by decide) (output_room rfl bytes)) ?_
  exact Chip.goes .idle _ rfl hidle (smooth_other (by decide) (output_room rfl bytes)) .refl

/-- The bytes that are given to `output` are transmitted. -/
theorem goes_output (src : List UInt8) (hs : s.Calm) (hgot : s.received = s.inputs.flatten) :
    ∃ s', (output.loop s src).Goes s' ∧ s'.Idle ∧ s'.received = s.received ∧ s'.sent = s.sent ++ src := by
  induction src generalizing s with
  | nil => exact ⟨_, .refl, ⟨⟨hs.gie, hs.txie, hs.awake, hs.free, hs.r, hs.w⟩, rfl, hgot⟩, rfl, (List.append_nil _).symm⟩
  | cons b bytes ih =>
    obtain ⟨s₁, hgoes₁, hs₁, hgot₁, hreceived₁, hsent₁⟩ := goes_put_byte hs hgot b bytes
    obtain ⟨s', hgoes, hs', hreceived, hsent⟩ := ih hs₁ hgot₁
    refine ⟨s', hgoes₁.trans hgoes, hs', hreceived.trans hreceived₁, ?_⟩
    rw [hsent, hsent₁, List.append_assoc]
    rfl

end Bytes

/-! ### Iterations -/

def Tick.Smooth (t : Tick) : Prop := ∀ u ∈ t.step, u.Smooth

/-- Smooth steps lead from `d` to `d'`. -/
abbrev Device.Goes : Device → Device → Prop := ReflTransGen (device.Leads Tick.Smooth)

/-- The server is about to call `input`, and everything that was received has been read. -/
structure Device.Idle (d : Device) : Prop where
  phase : d.phase = .asks
  chip : d.chip.Idle

section Iterations
variable {s' : Chip} {d d' : Device} {bs : List UInt8} {left : List (List UInt8)} {nxt : Mcctyp} {w : World}

theorem Device.goes (work : Work) (d₁ : Device) (hstep : d.step work = some d₁) (hsmooth : Tick.Smooth ⟨d, work, d₁⟩)
    (hgoes : d₁.Goes d') : d.Goes d' :=
  .head ⟨⟨d, work, d₁⟩, rfl, rfl, hstep, hsmooth⟩ hgoes

theorem goes_chip (h : d.chip.Goes s') : d.Goes { d with chip := s' } := by
  refine h.lift (fun s => ({ d with chip := s } : Device)) ?_
  rintro _ _ ⟨⟨s, act, s'⟩, rfl, rfl, hstep, hown, hsmooth⟩
  have hstep : Msp430.step s act = some s' := hstep
  have hdevice : ({ d with chip := s } : Device).step (.chip act) = some { d with chip := s' } := by
    rw [Device.step, if_pos hown, hstep]
    rfl
  refine ⟨⟨{ d with chip := s }, .chip act, { d with chip := s' }⟩, rfl, rfl, hdevice, ?_⟩
  rintro u hu
  obtain rfl := Option.some.inj hu
  exact hsmooth

/-- What is left of an answer is transmitted, in the calls of `output` that are left. -/
theorem goes_left (hs : d.chip.Idle) (hphase : d.phase = .gives left) :
    ∃ s', d.Goes { d with chip := s', phase := .gives [] } ∧ s'.Idle ∧ s'.received = d.chip.received ∧
      s'.sent = d.chip.sent ++ left.flatten := by
  induction left generalizing d with
  | nil =>
    rw [← hphase, List.flatten_nil, List.append_nil]
    exact ⟨d.chip, .refl, hs, rfl, rfl⟩
  | cons src left ih =>
    let call : Chip := output.loop { d.chip with outputs := d.chip.outputs ++ [src] } src
    obtain ⟨s₁, hgoes₁, hs₁, hreceived₁, hsent₁⟩ := goes_output (s := { d.chip with outputs := d.chip.outputs ++ [src] }) src
      ⟨hs.gie, hs.txie, hs.awake, hs.free, hs.r, hs.w⟩ hs.got
    obtain ⟨s', hgoes, hs', hreceived, hsent⟩ := ih (d := { d with chip := s₁, phase := .gives left }) hs₁ rfl
    refine ⟨s', ?_, hs', hreceived.trans hreceived₁, ?_⟩
    · have hcall : Msp430.step d.chip (.output src) = some call := if_pos hs.main
      have hstart : d.step .start = some { d with chip := call, phase := .gives left } := by
        rw [Device.step, hphase]
        exact congrArg (Option.map fun chip => { d with chip := chip, phase := .gives left }) hcall
      refine Device.goes .start _ hstart (fun u hu => ?_)
        ((goes_chip (d := { d with chip := call, phase := .gives left }) hgoes₁).trans hgoes)
      rw [Tick.step, hphase] at hu
      obtain rfl := Option.some.inj hu
      exact smooth_other (fun h => by cases h) (output_room (s := { d.chip with outputs := d.chip.outputs ++ [src] }) hs.got src)
    · rw [hsent, hsent₁, List.flatten_cons, List.append_assoc]

/-- A field is received and read, and its answer is transmitted. -/
theorem goes_iteration (hd : d.Idle) (hct : d.ct ≠ .invalid) (hlen : mcctlen d.w.z.session d.ct = bs.length)
    (hcloop : cloop (d.w.unread ⟨bs, false⟩) d.ct = some (nxt, w)) :
    ∃ d', d.Goes d' ∧ d'.Idle ∧ d'.ct = nxt ∧ d'.w = w ∧ d'.chip.received = d.chip.received ++ bs ∧
      d'.chip.sent = d.chip.sent ++ (w.outputs.drop d.w.outputs.length).flatten := by
  have hgot : d.chip.received = d.chip.inputs.flatten ++ [] := by rw [List.append_nil, hd.chip.got]
  obtain ⟨s₁, hgoes₁, hs₁, hinputs₁, hreceived₁, hsent₁⟩ := goes_input bs hd.chip.toCalm hgot
  let out : List (List UInt8) := w.outputs.drop d.w.outputs.length
  obtain ⟨s₂, hgoes₂, hs₂, hreceived₂, hsent₂⟩ :=
    goes_left (d := { d with chip := s₁, ct := nxt, w := w, phase := .gives out }) hs₁ rfl
  refine ⟨{ d with chip := s₂, ct := nxt, w := w, phase := .asks }, ?_, ⟨rfl, hs₂⟩, rfl, rfl, ?_, ?_⟩
  · let call : Chip := input.loop d.chip [] bs.length
    have hqty : (mcctlen d.w.z.session d.ct).toNat = bs.length := by omega
    have hcall : Msp430.step d.chip (.input bs.length) = some call := if_pos hd.chip.main
    have hasks : d.step .start = some { d with chip := call, phase := .reads } := by
      rw [Device.step, hd.phase]
      dsimp only
      rw [if_neg hct, hqty, hcall]
      rfl
    have hreads : ({ d with chip := s₁, phase := .reads } : Device).step .start =
        some { d with chip := s₁, ct := nxt, w := w, phase := .gives out } := by
      have hlast : s₁.inputs.getLastD [] = bs := by rw [hinputs₁, List.getLastD_concat]; rfl
      rw [Device.step]
      dsimp only
      rw [if_pos hs₁.main, hlast]
      exact congrArg (Option.map _) hcloop
    refine Device.goes .start _ hasks (fun u hu => ?_) ?_
    · rw [Tick.step, hd.phase] at hu
      obtain rfl := Option.some.inj hu
      dsimp only
      rw [hqty]
      exact smooth_other (fun h => by cases h) (input_room hd.chip.room)
    refine (goes_chip (d := { d with chip := call, phase := .reads }) hgoes₁).trans ?_
    refine Device.goes .start _ hreads (fun u hu => by cases hu) (hgoes₂.trans ?_)
    exact Device.goes .start _ rfl (fun u hu => by cases hu) .refl
  · rw [hreceived₂, hreceived₁]
  · rw [hsent₂, hsent₁]

/-- An iteration on the standard files that meets no end of the input. -/
theorem goes_cloop {w w' : World} (hd : d.Idle) (hw : d.w.unread w.stdin = w) (hct : d.ct ≠ .invalid)
    (hcloop : ClassicX.cloop w d.ct = some (nxt, w')) (heof : w'.stdin.eof = false) :
    ∃ d' bs out, d.Goes d' ∧ d'.Idle ∧ d'.ct = nxt ∧ d'.w.unread w'.stdin = w' ∧ w.stdin.rest = bs ++ w'.stdin.rest ∧
      d'.chip.received = d.chip.received ++ bs ∧ w'.stdout = w.stdout ++ out ∧ d'.chip.sent = d.chip.sent ++ out := by
  have hcloop : cloop w d.ct = some (nxt, w') := cloop_covers platform_above _ _ _ hcloop
  have hleft := cloop_left (P := platform) hcloop
  obtain ⟨⟨outs, houts⟩, -⟩ := cloop_grows (P := platform) hcloop
  have houts : w'.outputs = w.outputs ++ outs := houts
  obtain ⟨hstdin, hlen⟩ := input_left (mcctlen_nonneg w.z.session hct) (hleft ▸ heof)
  rw [← hleft] at hstdin
  set bs := (input w.stdin (mcctlen w.z.session d.ct)).2.1
  have hz : d.w.z = w.z := by
    rw [← hw]
    rfl
  have hbefore : d.w.outputs = w.outputs := by
    rw [← hw]
    rfl
  rw [← hw, hstdin] at hcloop
  rw [← hz] at hlen
  obtain ⟨⟨nxt, w₁⟩, hcloop₁, heq⟩ := Option.map_eq_some_iff.mp ((unread_cloop hlen w'.stdin.rest).symm.trans hcloop)
  obtain ⟨rfl, hw'⟩ := Prod.mk.inj heq
  obtain ⟨d', hgoes, hd', hct', rfl, hreceived, hsent⟩ := goes_iteration hd hct hlen hcloop₁
  have hafter : d'.w.outputs = w'.outputs := by
    rw [← hw']
    rfl
  refine ⟨d', bs, outs.flatten, hgoes, hd', hct', ?_, congrArg Stdin.rest hstdin, hreceived, ?_, ?_⟩
  · have hrest : w'.stdin = ⟨w'.stdin.rest, false⟩ := congrArg World.stdin hw'.symm
    rw [hrest]
    exact hw'
  · exact (congrArg List.flatten houts).trans List.flatten_append
  · rw [hsent, hafter, hbefore, houts, List.drop_left]

end Iterations

/-! ### Runs -/

section Runs
variable {ldefault : Ptr} {ldsize : Int16} {lddim : Mcvec} {stdin : List UInt8} {h : List Iter} {s : Mcctyp × World}

/-- The server is where the one on the standard files is, has received what that one has read, and has transmitted what that one
    has given away. -/
structure Device.Keeps (stdin : List UInt8) (s : Mcctyp × World) (d : Device) : Prop where
  idle : d.Idle
  ct : d.ct = s.1
  w : d.w.unread s.2.stdin = s.2
  received : d.chip.received ++ s.2.stdin.rest = stdin
  sent : d.chip.sent = s.2.stdout

theorem main_idle : (main ldefault ldsize lddim).Idle where
  phase := rfl
  chip := ⟨⟨rfl, rfl, rfl, rfl, ⟨rfl, rfl⟩, ⟨rfl, rfl⟩⟩, rfl, rfl⟩

theorem main_keeps : (main ldefault ldsize lddim).Keeps stdin (.evtno, csetup (lload ldefault ldsize lddim) stdin) where
  idle := main_idle
  ct := rfl
  w := rfl
  received := rfl
  sent := rfl

theorem Device.Keeps.iteration {d : Device} {t : Iter} (hd : d.Keeps stdin (t.ct, t.w)) (hok : start.loop.Ok t)
    (heof : t.w'.stdin.eof = false) : ∃ d', d.Goes d' ∧ d'.Keeps stdin (t.nxt, t.w') := by
  obtain ⟨hct, hcloop⟩ := hok
  obtain ⟨ct, w, nxt, w'⟩ := t
  obtain ⟨hidle, rfl, hw, hreceived, hsent⟩ := hd
  obtain ⟨d', bs, out, hgoes, hidle', hct', hw', hrest, hreceived', hout, hsent'⟩ := goes_cloop hidle hw hct hcloop heof
  refine ⟨d', hgoes, hidle', hct', hw', ?_, ?_⟩
  · rw [hreceived', List.append_assoc, ← hrest]
    exact hreceived
  · rw [hsent', hsent]
    exact hout.symm

/-- For every run on the standard files that meets no end of the input, there is one on the microcontroller in which the rings are
    in order and nobody oversleeps, that receives what was read, and transmits what was given away. -/
theorem device_serves (hrun : ClassicX.Starts ldefault ldsize lddim stdin h s) (heof : s.2.stdin.eof = false) :
    ∃ (h' : List Tick) (d : Device), Run device (main ldefault ldsize lddim) h' d ∧
      Always (fun _ t => t.s'.received.length ≤ t.s'.copied + 16) (h'.filterMap Tick.step) ∧
      Always (fun h t => t.act = .txdo → ¬Armed h) (h'.filterMap Tick.step) ∧ Always Undisturbed (h'.filterMap Tick.step) ∧
      d.ct = s.1 ∧ d.w.unread s.2.stdin = s.2 ∧ d.chip.received ++ s.2.stdin.rest = stdin ∧ d.chip.sent = s.2.stdout := by
  have hstep : ∀ h t (d : Device), ClassicX.Starts ldefault ldsize lddim stdin h (start.loop.pre t) →
      ((start.loop.pre t).2.stdin.eof = false → d.Keeps stdin (start.loop.pre t)) → start.loop.Ok t →
      ∃ d' : Device, d.Goes d' ∧ ((start.loop.post t).2.stdin.eof = false → d'.Keeps stdin (start.loop.post t)) := by
    intro h t d _ hkeeps hok
    by_cases heof : t.w'.stdin.eof = false
    · obtain ⟨bs, hread, -⟩ := cloop_anew hok.1 hok.2 heof
      obtain ⟨d', hgoes, hd'⟩ := (hkeeps (congrArg Stdin.eof hread)).iteration hok heof
      exact ⟨d', hgoes, fun _ => hd'⟩
    · exact ⟨d, .refl, fun h => absurd h heof⟩
  obtain ⟨h', d, hrun', hall, hkeeps⟩ := hrun.simulates (fun s (d : Device) => s.2.stdin.eof = false → d.Keeps stdin s)
    (fun _ => main_keeps) hstep
  have hsmooth : ∀ u ∈ h'.filterMap Tick.step, u.Smooth := List.forall_mem_filterMap.mpr hall
  obtain ⟨hroom, harmed, hwoken⟩ := smooth_always hsmooth
  obtain ⟨-, hct, hw, hreceived, hsent⟩ := hkeeps heof
  exact ⟨h', d, hrun', hroom, harmed, hwoken, hct, hw, hreceived, hsent⟩

/-- A state of a player that has not joined is read on the standard files, and the first byte of the next packet is not. -/
theorem device_serves_ping : ∃ (h : List Iter) (s : Mcctyp × World),
    ClassicX.Starts (fun _ => 0) 0 {} [8, 255, 0, 1, 2, 3, 4, 5, 6, 7, 8] h s ∧ s.2.stdin = ⟨[8], false⟩ ∧
    ∃ (h' : List Tick) (d : Device), Run device (main (fun _ => 0) 0 {}) h' d ∧
      d.chip.received ++ [8] = [8, 255, 0, 1, 2, 3, 4, 5, 6, 7, 8] ∧ d.chip.sent = [1] := by
  have hrun := starts_steps (fun _ => 0) 0 {} [8, 255, 0, 1, 2, 3, 4, 5, 6, 7, 8] 3
  obtain ⟨h', d, hrun', -, -, -, -, -, hreceived, hsent⟩ := device_serves hrun (by decide +kernel)
  exact ⟨_, _, hrun, rfl, h', d, hrun', hreceived, hsent.trans (by decide +kernel)⟩

end Runs

end ClassicX.Msp430
