import ClassicX.Theorems.Board
import ClassicX.Theorems.Link
import ClassicX.Theorems.Schedules

/-! What the server on the standard files does behind the bridge, the microcontroller does behind it: it receives the bytes of a
field from the line, and transmits their answer, where the other one takes an iteration. -/

namespace ClassicX.Msp430
open Relation (ReflTransGen)
open Runs (Run Always)

/-! ### Steps -/

def Shift.Smooth (t : Shift) : Prop := ∀ u ∈ t.tick, u.Smooth

/-- Smooth steps lead from `s` to `s'`. -/
abbrev Board.Goes : Board → Board → Prop := ReflTransGen (board.Leads Shift.Smooth)

/-- Smooth steps lead from `s` to `s'`, and the bridge reads nothing. -/
abbrev Board.Works : Board → Board → Prop := ReflTransGen (board.Leads fun t => t.Smooth ∧ ∀ n, t.act ≠ .read n)

section Boards
variable {ldefault : Ptr} {ldsize : Int16} {lddim : Mcvec} {asked : List (List UInt8)} {s s' : Board} {d' : Device} {l l' : Link}
  {n : ℕ}

theorem Board.works (act : Board.Act) (s₁ : Board) (hstep : s.step act = some s₁) (hsmooth : Shift.Smooth ⟨s, act, s₁⟩)
    (hact : ∀ n, act ≠ .read n) : s.Works s₁ :=
  .single ⟨⟨s, act, s₁⟩, rfl, rfl, hstep, hsmooth, hact⟩

theorem Board.Works.goes (h : s.Works s') : s.Goes s' :=
  ReflTransGen.mono (fun _ _ ⟨t, hpre, hpost, hok, ht⟩ => ⟨t, hpre, hpost, hok, ht.1⟩) _ _ h

/-- What the device does with the bytes at the start of the line, the board does. -/
theorem goes_board (hgoes : s.device.Goes d') : ∃ bs out, d'.chip.received = s.device.chip.received ++ bs ∧
    d'.chip.sent = s.device.chip.sent ++ out ∧
    ∀ rest, s.line = bs ++ rest → s.Works { s with line := rest, device := d', serial := s.serial ++ out } := by
  induction hgoes with
  | refl =>
    refine ⟨[], [], (List.append_nil _).symm, (List.append_nil _).symm, fun rest hline => ?_⟩
    obtain rfl : s.line = rest := hline
    rw [List.append_nil]
  | tail _ hstep ih =>
    obtain ⟨⟨d, work, d'⟩, rfl, rfl, hstep, hsmooth⟩ := hstep
    obtain ⟨bs, out, hreceived, hsent, hgoes⟩ := ih
    have hstep : d.step work = some d' := hstep
    cases hwork : work.receives with
    | true =>
      obtain ⟨b, rfl⟩ : ∃ b, work = .chip (.rxdo b) := by
        unfold Work.receives at hwork
        split at hwork
        · exact ⟨_, rfl⟩
        · cases hwork
      obtain ⟨hreceived', hsent'⟩ := receive_carried hstep
      refine ⟨bs ++ [b], out, ?_, hsent'.trans hsent, fun rest hline => ?_⟩
      · rw [← List.append_assoc, ← hreceived]
        exact hreceived'
      · have hline : s.line = bs ++ b :: rest := hline.trans (List.append_cons _ _ _).symm
        refine (hgoes _ hline).trans (Board.works .receive _ ?_ ?_ (fun n h => by cases h))
        · exact congrArg (Option.map _) hstep
        · rintro u hu
          obtain rfl := Option.some.inj hu
          exact hsmooth
    | false =>
      obtain ⟨hreceived', more, hsent'⟩ := work_carried hwork hstep
      refine ⟨bs, out ++ more, hreceived'.trans hreceived, ?_, fun rest hline => ?_⟩
      · rw [← List.append_assoc, ← hsent]
        exact hsent'.symm
      · refine (hgoes _ hline).trans (Board.works (.work work) _ ?_ ?_ (fun n h => by cases h))
        · have hdrop : d'.chip.sent.drop d.chip.sent.length = more := by
            have hsent' : d.chip.sent ++ more = d'.chip.sent := hsent'
            rw [← hsent', List.drop_left]
          rw [Board.step, if_neg (by rw [hwork]; exact Bool.false_ne_true), ← List.append_assoc, ← hdrop]
          exact congrArg (Option.map _) hstep
        · rintro u hu
          obtain rfl := Option.some.inj hu
          exact hsmooth

/-! ### Runs -/

/-- The board is where the server on the standard files is behind the bridge, and what that one has not read is on the line. -/
structure Board.Keeps (l : Link) (s : Board) : Prop where
  idle : s.device.Idle
  ct : s.device.ct = l.ct
  w : s.device.w.unread l.w.stdin = l.w
  asked : s.asked = l.asked
  line : s.line = l.w.stdin.rest
  port : s.toPort = l.toPort

theorem Board.Keeps.request (hs : s.Keeps l) (hstep : l.step .request = some l') : ∃ s' : Board, s.Works s' ∧ s'.Keeps l' := by
  rw [Link.step] at hstep
  split at hstep
  case h_2 => cases hstep
  case h_1 inbuf left houtbuf hleft =>
    have houtbuf' : s.outbuf = none := (congrArg Port.outbuf hs.port).trans houtbuf
    have hleft' : s.asked = inbuf :: left := hs.asked.trans hleft
    by_cases hnil : inbuf = []
    · rw [if_pos hnil] at hstep
      obtain rfl := Option.some.inj hstep
      refine ⟨{ s with asked := left }, Board.works .request _ ?_ (fun u hu => by cases hu) (fun n h => by cases h),
        { hs with asked := rfl }⟩
      rw [Board.step, houtbuf', hleft']
      exact if_pos hnil
    · rw [if_neg hnil] at hstep
      obtain rfl := Option.some.inj hstep
      have hw : (s.device.w.unread l.w.stdin).unread ⟨l.w.stdin.rest ++ inbuf, l.w.stdin.eof⟩ =
          l.w.unread ⟨l.w.stdin.rest ++ inbuf, l.w.stdin.eof⟩ := by rw [hs.w]
      refine ⟨{ s with asked := left, line := s.line ++ inbuf, outbuf := some [] },
        Board.works .request _ ?_ (fun u hu => by cases hu) (fun n h => by cases h),
        { hs with
          w := hw
          asked := rfl
          line := congrArg (· ++ inbuf) hs.line
          port := congrArg (fun p : Port => { p with outbuf := some [] }) hs.port }⟩
      rw [Board.step, houtbuf', hleft']
      exact if_neg hnil

theorem Board.Keeps.serve (hs : s.Keeps l) (hl : Relayed ldefault ldsize lddim asked l) (hstep : l.step .serve = some l') :
    ∃ s' : Board, s.Works s' ∧ s'.Keeps l' := by
  have heof := (serve_relayed hl hstep).eof
  rw [Link.step, Option.ite_none_right_eq_some] at hstep
  obtain ⟨⟨hct, -⟩, hstep⟩ := hstep
  obtain ⟨⟨nxt, w'⟩, hcloop, rfl⟩ := Option.map_eq_some_iff.mp hstep
  rw [← hs.ct] at hct hcloop
  obtain ⟨d', bs, out, hgoes, hd', hct', hw', hrest, hreceived, hout, hsent⟩ := goes_cloop hs.idle hs.w hct hcloop heof
  obtain ⟨bs', out', hreceived', hsent', hboard⟩ := goes_board hgoes
  obtain rfl : bs = bs' := List.append_cancel_left (hreceived.symm.trans hreceived')
  obtain rfl : out = out' := List.append_cancel_left (hsent.symm.trans hsent')
  refine ⟨_, hboard w'.stdin.rest (hs.line.trans hrest), hd', hct', hw', hs.asked, rfl, ?_⟩
  have hdrop : w'.stdout.drop l.w.stdout.length = out := by rw [hout, List.drop_left]
  rw [hdrop]
  exact congrArg (fun p : Port => { p with serial := p.serial ++ out }) hs.port

theorem Board.Keeps.read (hs : s.Keeps l) (hstep : l.step (.read n) = some l') : ∃ s' : Board, s.Goes s' ∧ s'.Keeps l' := by
  obtain ⟨port, hport, rfl⟩ := read_port hstep
  rw [← hs.port] at hport
  have hread : s.step (.read n) = some { s with toPort := port } := congrArg (Option.map _) hport
  have hleads : board.Leads Shift.Smooth s { s with toPort := port } :=
    ⟨⟨s, .read n, { s with toPort := port }⟩, rfl, rfl, hread, fun u hu => by cases hu⟩
  exact ⟨_, .single hleads, { hs with port := rfl }⟩

theorem first_keeps : (Board.first ldefault ldsize lddim asked).Keeps (.first ldefault ldsize lddim asked) where
  idle := main_idle
  ct := rfl
  w := rfl
  asked := rfl
  line := rfl
  port := rfl

/-- What the bridge and the server on the standard files do, in any order of their steps, the bridge and the microcontroller can do
    as well, with the rings in order and nobody oversleeping: the same is sent to the client. -/
theorem board_serves {h : List Exchange} (hrun : Run link (.first ldefault ldsize lddim asked) h l) :
    ∃ (h' : List Shift) (s : Board), Run board (.first ldefault ldsize lddim asked) h' s ∧
      Always (fun _ t => t.s'.received.length ≤ t.s'.copied + 16) (chipSteps h') ∧
      Always (fun h t => t.act = .txdo → ¬Armed h) (chipSteps h') ∧ Always Undisturbed (chipSteps h') ∧
      s.asked = l.asked ∧ s.line = l.w.stdin.rest ∧ s.device.ct = l.ct ∧ s.device.w.unread l.w.stdin = l.w ∧
      s.serial = l.serial ∧ s.outbuf = l.outbuf ∧ s.sent = l.sent := by
  have hstep : ∀ h t (s : Board), Run link (.first ldefault ldsize lddim asked) h (link.pre t) → s.Keeps (link.pre t) → link.Ok t →
      ∃ s' : Board, s.Goes s' ∧ s'.Keeps (link.post t) := by
    rintro h ⟨l, act, l'⟩ s hrun hs hok
    have hstep : l.step act = some l' := hok
    cases act with
    | request =>
      obtain ⟨s', hworks, hs'⟩ := hs.request hstep
      exact ⟨s', hworks.goes, hs'⟩
    | serve =>
      obtain ⟨s', hworks, hs'⟩ := hs.serve (link_relayed hrun) hstep
      exact ⟨s', hworks.goes, hs'⟩
    | read n => exact hs.read hstep
  obtain ⟨h', s, hrun', hall, hs⟩ := hrun.simulates (fun l (s : Board) => s.Keeps l) first_keeps hstep
  have hsmooth : ∀ u ∈ chipSteps h', u.Smooth :=
    List.forall_mem_filterMap.mpr (List.forall_mem_filterMap.mpr hall)
  obtain ⟨hroom, harmed, hwoken⟩ := smooth_always hsmooth
  exact ⟨h', s, hrun', hroom, harmed, hwoken, hs.asked, hs.line, hs.ct, hs.w, congrArg Port.serial hs.port,
    congrArg Port.outbuf hs.port, congrArg Port.sent hs.port⟩

/-- A greeting is taken, its three fields are read, and its answer is sent in two pieces before `remo.recv` is called again. -/
theorem board_serves_join : ∃ (h : List Exchange) (l : Link),
    Run link (.first (fun _ => 0) 0 {} [Asked.form.write (.greeting0 letterName (by decide)), []]) h l ∧ h.length = 7 ∧
    ∃ (h' : List Shift) (s : Board),
      Run board (.first (fun _ => 0) 0 {} [Asked.form.write (.greeting0 letterName (by decide)), []]) h' s ∧ s.asked = [] ∧
      s.sent = l.sent ∧ ((Heard.form 0).all s.sent.flatten).1.map Sigma.fst = [.pgreeting, .lnew, .ldim, .enew, .enew] := by
  have hrun := Link.steps_run (.first (fun _ => 0) 0 {} [Asked.form.write (.greeting0 letterName (by decide)), []])
    [.request, .serve, .serve, .serve, .read 3, .read 219, .request]
  obtain ⟨h', s, hrun', -, -, -, hasked, -, -, -, -, -, hsent⟩ := board_serves hrun
  refine ⟨_, _, hrun, by decide +kernel, h', s, hrun', hasked.trans (by decide +kernel), hsent, ?_⟩
  rw [hsent]
  decide +kernel

end Boards

end ClassicX.Msp430
