import ClassicX.Theorems.BoardServes

/-! A player behind the bridge, with the server on the microcontroller. While no piece that the bridge reads ends with a byte 1
before the server has answered, every request is answered with the answers to its packets, but for the last ping. -/

namespace ClassicX.Msp430
open Runs (Run Always)

/-- The piece ends with a byte 1, and more is to be read, or the microcontroller has more to read or to do. -/
def Shift.Cut (t : Shift) : Prop :=
  ∃ n, t.act = .read n ∧ (t.s.serial.take n).getLast? = some 1 ∧
    (n < t.s.serial.length ∨ t.s.line ≠ [] ∨ ¬t.s.device.Quiet)

/-! ### Asleep -/

/-- The device has called `input`, and sleeps until a byte is received. -/
def Device.asleep (d : Device) : Device :=
  { d with
    phase := .reads
    chip := { d.chip with asleep := true, main := .input [] (mcctlen d.w.z.session d.ct).toNat .test } }

section Asleep
variable {s₀ s : Board} {h : List Shift}

theorem work_silent {work : Work} {d : Device} (hown : work.receives = false) (hstep : s.device.step work = some d)
    (hsent : d.chip.sent = s.device.chip.sent) : s.step (.work work) = some { s with device := d } := by
  rw [Board.step, hown, hstep, if_neg Bool.false_ne_true, Option.map_some, hsent, List.drop_length, List.append_nil]

/-- A server that asks for more goes to sleep: there is nothing in the ring. -/
theorem board_sleeps (hrun : Run board s₀ h s) (hidle : s.device.Idle) (hct : s.device.ct ≠ .invalid)
    (hlen : 0 < mcctlen s.device.w.z.session s.device.ct)
    (hroom : Always (fun _ t => t.s'.received.length ≤ t.s'.copied + 16) (chipSteps h))
    (harmed : Always (fun h t => t.act = .txdo → ¬Armed h) (chipSteps h)) (hwoken : Always Undisturbed (chipSteps h))
    (hcut : Always (fun _ t => ¬t.Cut) h) :
    ∃ h', Run board s₀ h' { s with device := s.device.asleep } ∧ s.device.asleep.Quiet ∧
      Always (fun _ t => t.s'.received.length ≤ t.s'.copied + 16) (chipSteps h') ∧
      Always (fun h t => t.act = .txdo → ¬Armed h) (chipSteps h') ∧ Always Undisturbed (chipSteps h') ∧
      Always (fun _ t => ¬t.Cut) h' := by
  obtain ⟨port, asked, line, ⟨⟨r, ring, gie, txie, free, asleep, main, received, sent, inputs, outputs⟩, ct, w, phase⟩⟩ := s
  obtain ⟨hphase, ⟨⟨hgie, htxie, hawake, hfree, hr, -⟩, hmain, hgot⟩⟩ := hidle
  obtain ⟨buf, frnt, back, count⟩ := r
  obtain ⟨hqty, -⟩ := hr
  dsimp only at hphase hgie htxie hawake hfree hqty hmain hgot hct hlen
  subst hphase hgie htxie hawake hfree hqty hmain hgot
  obtain ⟨n, hn⟩ : ∃ n, (mcctlen w.z.session ct).toNat = n + 1 := ⟨(mcctlen w.z.session ct).toNat - 1, by omega⟩
  -- The server before the call of `input`, at the test, behind it, and asleep.
  let place (phase : Phase) (main : Main) (asleep : Bool) : Device :=
    ⟨⟨⟨buf, frnt, back, 0⟩, ring, true, false, true, asleep, main, inputs.flatten, sent, inputs, outputs⟩, ct, w, phase⟩
  let asks : Device := place .asks .rest false
  let tests : Device := place .reads (.input [] (n + 1) .test) false
  let dozes : Device := place .reads (.input [] (n + 1) .lpm0) false
  let sleeps : Device := place .reads (.input [] (n + 1) .test) true
  let onBoard (d : Device) : Board := ⟨port, asked, line, d⟩
  have hasleep : asks.asleep = sleeps := by
    dsimp only [Device.asleep, asks, sleeps, place]
    rw [hn]
  have hstart : asks.step .start = some tests := by
    rw [Device.step]
    dsimp only [asks, tests, place]
    rw [if_neg hct, hn]
    rfl
  have hstep₁ : (onBoard asks).step (.work .start) = some (onBoard tests) := work_silent rfl hstart rfl
  have hstep₂ : (onBoard tests).step (.work (.chip .stmt)) = some (onBoard dozes) := work_silent rfl rfl rfl
  have hstep₃ : (onBoard dozes).step (.work (.chip .stmt)) = some (onBoard sleeps) := work_silent rfl rfl rfl
  have hfits : inputs.flatten.length ≤ (inputs.flatten ++ []).length + 16 := by
    rw [List.append_nil]
    omega
  have hrun₁ := Run.next (S := board) ⟨onBoard asks, .work .start, onBoard tests⟩ hrun hstep₁
  have hrun₂ := Run.next (S := board) ⟨onBoard tests, .work (.chip .stmt), onBoard dozes⟩ hrun₁ hstep₂
  have hrun₃ := Run.next (S := board) ⟨onBoard dozes, .work (.chip .stmt), onBoard sleeps⟩ hrun₂ hstep₃
  show ∃ h', Run board s₀ h' (onBoard asks.asleep) ∧ asks.asleep.Quiet ∧ _
  rw [hasleep]
  refine ⟨_, hrun₃, ⟨rfl, rfl, rfl, rfl⟩, ?_, ?_, ?_, ?_⟩
  · exact ⟨⟨⟨hroom, hfits⟩, hfits⟩, hfits⟩
  · exact ⟨⟨⟨harmed, fun h => by cases h⟩, fun h => by cases h⟩, fun h => by cases h⟩
  · exact ⟨⟨⟨hwoken, fun h => by cases h⟩, fun _ => trivial⟩, fun _ => dvd_zero 256⟩
  · refine ⟨⟨⟨hcut, ?_⟩, ?_⟩, ?_⟩
    all_goals
      rintro ⟨n, hact, -⟩
      cases hact

end Asleep

/-! ### Before the answer is read -/

section Answered
variable {ldefault : Ptr} {ldsize : Int16} {lddim : Mcvec} {asked : List (List UInt8)}

/-- What the server behind the bridge does while the bridge reads nothing, the microcontroller does while it reads nothing. -/
theorem link_works {h : List Exchange} {l : Link} (hrun : Run link (.first ldefault ldsize lddim asked) h l)
    (hread : ∀ t ∈ h, ∀ n, t.act ≠ .read n) : ∃ s : Board, (Board.first ldefault ldsize lddim asked).Works s ∧ s.Keeps l := by
  induction hrun with
  | start => exact ⟨_, .refl, first_keeps⟩
  | @next h t hrun hok ih =>
    obtain ⟨ht, hread⟩ := List.forall_mem_cons.mp hread
    obtain ⟨s, hworks, hs⟩ := ih hread
    obtain ⟨l, act, l'⟩ := t
    have hstep : l.step act = some l' := hok
    cases act with
    | request =>
      obtain ⟨s', hworks', hs'⟩ := hs.request hstep
      exact ⟨s', hworks.trans hworks', hs'⟩
    | serve =>
      obtain ⟨s', hworks', hs'⟩ := hs.serve (link_relayed hrun) hstep
      exact ⟨s', hworks.trans hworks', hs'⟩
    | read n => exact absurd rfl (ht n)

/-- A greeting is taken and answered behind the bridge, and nothing is read. -/
theorem letter_answered : ∃ (h : List Exchange) (l : Link),
    Run link (.first (fun _ => 0) 0 {} [Asked.form.write (.greeting0 letterName (by decide)), []]) h l ∧
    (∀ t ∈ h, ∀ n, t.act ≠ .read n) ∧
    (l.serial.length = 222 ∧ l.serial.getLast? = some 1 ∧ l.outbuf = some [] ∧ l.sent = []) ∧
    l.ct = .evtno ∧ l.w.stdin.rest = [] ∧ mcctlen l.w.z.session .evtno = 1 := by
  have hrun := Link.steps_run (.first (fun _ => 0) 0 {} [Asked.form.write (.greeting0 letterName (by decide)), []])
    [.request, .serve, .serve, .serve]
  refine ⟨_, _, hrun, fun t ht n hact => ?_, by decide +kernel, by decide +kernel⟩
  have hacts : ((Link.first (fun _ => 0) 0 {} [Asked.form.write (.greeting0 letterName (by decide)), []]).steps
      [.request, .serve, .serve, .serve]).1.map Exchange.act = [.serve, .serve, .serve, .request] := by decide +kernel
  have hmem := List.mem_map_of_mem (f := Exchange.act) ht
  rw [hacts, hact] at hmem
  simp at hmem

end Answered

/-! ### Requests -/

/-- The requests of `taken` were taken, and those of `left` were not. All that were taken were answered, but for the last if
    there is an `outbuf`. -/
structure Board.Told (l : Lvl) (ass taken left : List (List Asked)) (s : Board) : Prop where
  all : ass = taken ++ left
  requests : Requests left s.asked
  sent : s.sent = ((Player.nobody.replies l ass).take s.sent.length).map fun xs => (reply xs).dropLast
  waits : s.outbuf = none → s.sent.length = taken.length
  reads : ∀ outbuf, s.outbuf = some outbuf → s.sent.length + 1 = taken.length ∧ outbuf.getLast? ≠ some 1

section Requests
variable {ldefault : Ptr} {ldsize : Int16} {lddim : Mcvec} {ass taken left : List (List Asked)} {asked : List (List UInt8)}
  {s s' : Board} {act : Board.Act} {h : List Shift}

/-- Where the microcontroller has nothing more to do, the next answer was read or can be read. -/
theorem told_answer (hass : Courteous .nobody ass) (hasked : Requests ass asked)
    (hrun : Run board (.first ldefault ldsize lddim asked) h s)
    (hroom : Always (fun _ t => t.s'.received.length ≤ t.s'.copied + 16) (chipSteps h))
    (harmed : Always (fun h t => t.act = .txdo → ¬Armed h) (chipSteps h)) (hwoken : Always Undisturbed (chipSteps h))
    (hline : s.line = []) (hquiet : s.device.Quiet) (hs : s.Told (lload ldefault ldsize lddim) ass taken left)
    {outbuf : List UInt8} (houtbuf : s.outbuf = some outbuf) :
    ∃ xs, (Player.nobody.replies (lload ldefault ldsize lddim) ass)[s.sent.length]? = some xs ∧ outbuf ++ s.serial = reply xs ∧
      (reply xs).getLast? = some 1 := by
  set l := lload ldefault ldsize lddim
  obtain ⟨hlen, -⟩ := hs.reads outbuf houtbuf
  have htaken : Courteous .nobody taken := by
    have hall := hs.all ▸ hass
    exact hall.before
  obtain ⟨hlength, hflatten, hpinged⟩ := htaken.all (l := l)
  obtain ⟨-, -, hends⟩ := hass.all (l := l)
  -- The server has read the requests of `taken`, and given away the answers to them.
  have hstdout : s.device.chip.sent = (Player.nobody.replies l taken).flatMap reply := by
    obtain ⟨got, hasked', hgot⟩ := (board_carries hrun).takes
    have hrequests : Requests taken got := by
      rw [hs.all, hasked'] at hasked
      exact hasked.before hs.requests
    obtain ⟨hsent, -, h', more, hrun', hend⟩ := quiet_settles (board_device hrun) hroom harmed hwoken hquiet
    rw [hline, List.append_nil, hrequests.flatten] at hgot
    rw [← hgot] at hrun'
    obtain ⟨p', hp⟩ := htaken.answered (l := l)
    have hpackets := starts_settled (P := platform) platform_above hp hrun' rfl (settled_of (P := platform) hend)
    rw [hsent]
    refine hpackets.trans ?_
    rw [← hflatten, List.flatten_eq_flatMap, List.flatMap_assoc]
    rfl
  -- All of them but the last were sent.
  have hsent : s.sent.flatMap (· ++ [1]) = ((Player.nobody.replies l ass).take s.sent.length).flatMap reply := by
    conv_lhs => rw [hs.sent]
    rw [List.flatMap_map]
    refine List.flatMap_congr fun xs hxs => ?_
    obtain ⟨hne, hpinged⟩ := hends xs (List.mem_of_mem_take hxs)
    exact dropLast_concat (reply_last hne hpinged)
  have htake : (Player.nobody.replies l ass).take taken.length = Player.nobody.replies l taken := by
    rw [hs.all]
    exact replies_take taken left
  have hgives : s.device.chip.sent = s.sent.flatMap (· ++ [1]) ++ outbuf ++ s.serial := by
    have hgives := (board_carries hrun).gives
    rw [Port.passed, houtbuf] at hgives
    exact hgives
  obtain ⟨xs, hxs⟩ : ∃ xs, (Player.nobody.replies l ass)[s.sent.length]? = some xs := by
    have hle : taken.length ≤ (Player.nobody.replies l ass).length := by
      rw [← hlength, ← htake, List.length_take]
      exact Nat.min_le_right _ _
    exact ⟨_, List.getElem?_eq_getElem (by omega)⟩
  obtain ⟨hne, hpinged⟩ := hends xs (List.mem_of_getElem? hxs)
  refine ⟨xs, hxs, ?_, reply_last hne hpinged⟩
  rw [hgives, hsent, ← htake, ← hlen, List.take_add_one, hxs, Option.toList_some, List.flatMap_append, List.flatMap_singleton,
    List.append_assoc] at hstdout
  exact List.append_cancel_left hstdout

/-- A step of a run in which no answer is cut. -/
theorem step_told (hass : Courteous .nobody ass) (hasked : Requests ass asked)
    (hrun : Run board (.first ldefault ldsize lddim asked) h s)
    (hroom : Always (fun _ t => t.s'.received.length ≤ t.s'.copied + 16) (chipSteps h))
    (harmed : Always (fun h t => t.act = .txdo → ¬Armed h) (chipSteps h)) (hwoken : Always Undisturbed (chipSteps h))
    (hs : s.Told (lload ldefault ldsize lddim) ass taken left) (hstep : s.step act = some s') (hcut : ¬Shift.Cut ⟨s, act, s'⟩) :
    ∃ taken' left', s'.Told (lload ldefault ldsize lddim) ass taken' left' := by
  cases act with
  | request =>
    obtain ⟨inbuf, asked', houtbuf, hleft, hs'⟩ := request_takes hstep
    have hrequests := hs.requests
    rw [hleft] at hrequests
    rcases hs' with ⟨rfl, rfl⟩ | ⟨hne, rfl⟩
    · exact ⟨taken, left, { hs with requests := hrequests.closed }⟩
    · obtain ⟨as, left, rfl, -, hrequests⟩ := hrequests.cons hne
      refine ⟨taken ++ [as], left, hs.all.trans (List.append_cons _ _ _), hrequests, hs.sent, fun h => (by cases h), ?_⟩
      rintro outbuf hnil
      obtain rfl := Option.some.inj hnil
      refine ⟨?_, fun h => by cases h⟩
      rw [List.length_append, List.length_singleton]
      exact congrArg (· + 1) (hs.waits houtbuf)
  | receive =>
    rw [Board.step] at hstep
    split at hstep
    · cases hstep
    · obtain ⟨d, -, rfl⟩ := Option.map_eq_some_iff.mp hstep
      exact ⟨taken, left, { hs with }⟩
  | work work =>
    rw [Board.step, Option.ite_none_left_eq_some] at hstep
    obtain ⟨d, -, rfl⟩ := Option.map_eq_some_iff.mp hstep.2
    exact ⟨taken, left, { hs with }⟩
  | read n =>
    obtain ⟨port, hport, rfl⟩ := Option.map_eq_some_iff.mp hstep
    obtain ⟨outbuf, houtbuf, -, ⟨hone, rfl⟩ | ⟨hone, rfl⟩⟩ := port_read hport
    · -- The answer was read to its end.
      obtain ⟨hlen, -⟩ := hs.reads outbuf houtbuf
      have hno : ¬(n < s.serial.length ∨ s.line ≠ [] ∨ ¬s.device.Quiet) := fun h => hcut ⟨n, rfl, hone, h⟩
      push Not at hno
      obtain ⟨hall, hline, hquiet⟩ := hno
      obtain ⟨xs, hxs, hreply, -⟩ := told_answer hass hasked hrun hroom harmed hwoken hline hquiet hs houtbuf
      rw [List.take_of_length_le hall, hreply]
      refine ⟨taken, left, hs.all, hs.requests, ?_, fun _ => ?_, fun _ h => by cases h⟩
      · rw [List.length_append, List.length_singleton, List.take_add_one, hxs, Option.toList_some, List.map_append, ← hs.sent]
        rfl
      · rw [List.length_append, List.length_singleton]
        exact hlen
    · obtain ⟨hlen, hlast⟩ := hs.reads outbuf houtbuf
      refine ⟨taken, left, hs.all, hs.requests, hs.sent, fun h => (by cases h), ?_⟩
      rintro b hb
      obtain rfl := Option.some.inj hb
      refine ⟨hlen, ?_⟩
      by_cases hnil : s.serial.take n = []
      · rw [hnil, List.append_nil]
        exact hlast
      · rw [List.getLast?_append_of_ne_nil _ hnil]
        exact hone

theorem board_told (hass : Courteous .nobody ass) (hasked : Requests ass asked)
    (hrun : Run board (.first ldefault ldsize lddim asked) h s)
    (hroom : Always (fun _ t => t.s'.received.length ≤ t.s'.copied + 16) (chipSteps h))
    (harmed : Always (fun h t => t.act = .txdo → ¬Armed h) (chipSteps h)) (hwoken : Always Undisturbed (chipSteps h))
    (hcut : Always (fun _ t => ¬t.Cut) h) : ∃ taken left, s.Told (lload ldefault ldsize lddim) ass taken left := by
  induction hrun with
  | start => exact ⟨[], ass, rfl, hasked, rfl, fun _ => rfl, fun _ h => by cases h⟩
  | @next h t hrun hok ih =>
    have hbefore : ∀ {P : List Step → Step → Prop}, Always P (chipSteps (t :: h)) → Always P (chipSteps h) := by
      intro P hall
      rw [chipSteps, List.filterMap_filterMap] at hall ⊢
      exact hall.before
    obtain ⟨taken, left, hs⟩ := ih (hbefore hroom) (hbefore harmed) (hbefore hwoken) hcut.1
    exact step_told hass hasked hrun (hbefore hroom) (hbefore harmed) (hbefore hwoken) hs hok hcut.2

/-- A player behind the bridge, with the server on the microcontroller, who greets first with the version `v` and a name that is
    not too long, and with no other version or name later, hears the answers to the packets of each request, but for the last
    ping: at any time those to the first requests, and to all of them where nothing more can happen. -/
theorem board_heard (hass : Courteous .nobody ass) {v : Int} (hfirst : ∀ a ∈ ass.flatten.head?, a.version = some v)
    (hversion : ∀ a ∈ ass.flatten, a.version = none ∨ a.version = some v) (hasked : Requests ass asked)
    (hrun : Run board (.first ldefault ldsize lddim asked) h s)
    (hroom : Always (fun _ t => t.s'.received.length ≤ t.s'.copied + 16) (chipSteps h))
    (harmed : Always (fun h t => t.act = .txdo → ¬Armed h) (chipSteps h)) (hwoken : Always Undisturbed (chipSteps h))
    (hcut : Always (fun _ t => ¬t.Cut) h) :
    (Heard.form v).all s.sent.flatten = (((Player.nobody.replies (lload ldefault ldsize lddim) ass).take s.sent.length).flatMap
        fun xs => (xs.flatMap (Answer.hears v)).dropLast, []) ∧
      (s.Quiet → s.sent.length = ass.length) := by
  obtain ⟨taken, left, hs⟩ := board_told hass hasked hrun hroom harmed hwoken hcut
  refine ⟨sent_heard hass hfirst hversion hs.sent, fun hquiet => ?_⟩
  obtain ⟨-, hgie, -⟩ := quiet_settles (board_device hrun) hroom harmed hwoken hquiet.device
  cases houtbuf : s.outbuf with
  | none =>
    have hleft : left = [] := by
      have hrequest := hquiet.request
      have hrequests := hs.requests
      cases hasked : s.asked with
      | nil =>
        rw [hasked] at hrequests
        exact hrequests.nil
      | cons inbuf asked =>
        simp only [Board.step, houtbuf, hasked] at hrequest
        split at hrequest <;> cases hrequest
    rw [hs.waits houtbuf, hs.all, hleft, List.append_nil]
  | some outbuf =>
    obtain ⟨-, hlast⟩ := hs.reads outbuf houtbuf
    obtain ⟨xs, -, hreply, hone⟩ := told_answer hass hasked hrun hroom harmed hwoken (quiet_line hquiet hgie) hquiet.device hs houtbuf
    rw [quiet_read hquiet houtbuf, List.append_nil] at hreply
    exact absurd (hreply ▸ hone) hlast

/-- A greeting is taken and answered, and its answer is read in one piece once the microcontroller sleeps. -/
theorem board_heard_join : ∃ (h : List Shift) (s : Board),
    Run board (.first (fun _ => 0) 0 {} [Asked.form.write (.greeting0 letterName (by decide)), []]) h s ∧ s.sent.length = 1 ∧
    ((Heard.form 0).all s.sent.flatten).1.map Sigma.fst = [.pgreeting, .lnew, .ldim, .enew, .enew] := by
  obtain ⟨served, l, hlink, hread, ⟨hserial, hlast, houtbuf, hsent⟩, hct, hstdin, hlen⟩ := letter_answered
  -- The microcontroller has given the answer, and goes to sleep.
  obtain ⟨s, hworks, hs⟩ := link_works hlink hread
  obtain ⟨h, hrun, hall⟩ := Run.start.leads (List.forall_mem_nil _) hworks
  obtain ⟨hroom, harmed, hwoken⟩ := smooth_always (h := chipSteps h)
    (List.forall_mem_filterMap.mpr (List.forall_mem_filterMap.mpr fun t ht => (hall t ht).1))
  have hcut : Always (fun _ t => ¬t.Cut) h := .of_all hall fun _ t _ ht ⟨n, hact, _⟩ => ht.2 n hact
  have hct' : s.device.ct = .evtno := hs.ct.trans hct
  have hz : s.device.w.z = l.w.z := by
    rw [← hs.w]
    rfl
  obtain ⟨h₁, hrun₁, hquiet, hroom₁, harmed₁, hwoken₁, hcut₁⟩ := board_sleeps hrun hs.idle (by rw [hct']; decide)
    (by rw [hct', hz, hlen]; exact one_pos) hroom harmed hwoken hcut
  -- The whole answer is read.
  rw [← hs.port] at hserial hlast houtbuf hsent
  obtain ⟨port, hport⟩ := Option.isSome_iff_exists.mp (port_reads houtbuf (by decide : 222 ≤ READLEN) hserial.ge)
  have htake : s.serial.take 222 = s.serial := List.take_of_length_le hserial.le
  have hone : port.sent.length = 1 := by
    obtain ⟨outbuf, -, -, ⟨-, rfl⟩ | ⟨hone, -⟩⟩ := port_read hport
    · rw [hsent]
      rfl
    · rw [htake] at hone
      exact absurd hlast hone
  have hstep : Board.step { s with device := s.device.asleep } (.read 222) =
      some { s with device := s.device.asleep, toPort := port } := congrArg (Option.map _) hport
  have hrun₂ := Run.next (S := board) ⟨_, _, _⟩ hrun₁ hstep
  have hwhole : ¬Shift.Cut ⟨{ s with device := s.device.asleep }, .read 222, { s with device := s.device.asleep, toPort := port }⟩ := by
    rintro ⟨n, hact, -, hmore | hline | hbusy⟩
    · obtain rfl : 222 = n := Board.Act.read.inj hact
      exact absurd hmore (not_lt.mpr hserial.le)
    · exact hline (hs.line.trans hstdin)
    · exact hbusy hquiet
  obtain ⟨hass, hasked⟩ := letter_requests
  have hheard := (board_heard (v := 0) hass (by simp [Asked.version]) (by simp [Asked.version]) hasked hrun₂ hroom₁ harmed₁ hwoken₁
    ⟨hcut₁, hwhole⟩).1
  refine ⟨_, _, hrun₂, hone, ?_⟩
  have hlength : (board.post ⟨{ s with device := s.device.asleep }, .read 222,
      { s with device := s.device.asleep, toPort := port }⟩).sent.length = 1 := hone
  rw [hlength] at hheard
  rw [hheard]
  decide +kernel

end Requests

end ClassicX.Msp430
