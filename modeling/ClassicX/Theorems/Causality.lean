import ClassicX.Theorems.Frame

/-! The handlers do not look at what is still to be read: what the server gives away follows from what it has read. -/

namespace ClassicX
open Runs (Run)

/-- The state, with `s` still to be read. -/
def World.unread (s : Stdin) (w : World) : World := { w with stdin := s }

/-! ### The loop -/

section Loop
variable {w : World} {ct : Mcctyp}

theorem input_whole (bs more : List UInt8) : input ⟨bs ++ more, false⟩ bs.length = ((bs.length : Int), bs, ⟨more, false⟩) := by
  simp only [input, Int.toNat_natCast, List.take_left, List.drop_left]
  simp

theorem input_left {stdin : Stdin} {qty : Int} (hqty : 0 ≤ qty) (heof : (input stdin qty).2.2.eof = false) :
    stdin = ⟨(input stdin qty).2.1 ++ (input stdin qty).2.2.rest, false⟩ ∧ qty = (input stdin qty).2.1.length := by
  obtain ⟨rest, eof⟩ := stdin
  simp only [input, Bool.or_eq_false_iff, decide_eq_false_iff_not, Nat.not_lt] at heof ⊢
  obtain ⟨rfl, hlen⟩ := heof
  rw [List.take_append_drop]
  have hle := List.length_take_le qty.toNat rest
  exact ⟨rfl, by omega⟩

theorem mcctlen_nonneg (s : Mcx) (hct : ct ≠ .invalid) : 0 ≤ mcctlen s ct := by
  rw [mcctlen]
  cases ct with
  | invalid => exact absurd rfl hct
  | _ => dsimp only; split_ifs <;> decide

variable [P : Platform]

/-- An iteration that is given all that it asks for does not look at what follows. -/
theorem unread_cloop {bs : List UInt8} (hlen : mcctlen w.z.session ct = bs.length) (more : List UInt8) :
    cloop (w.unread ⟨bs ++ more, false⟩) ct = (cloop (w.unread ⟨bs, false⟩) ct).map (afterResult [] ⟨more, false⟩) := by
  have hz : ∀ s, (w.unread s).z = w.z := fun _ => rfl
  have hstdin : ∀ s, (w.unread s).stdin = s := fun _ => rfl
  have hwhole := input_whole bs []
  rw [List.append_nil] at hwhole
  have hpos : ¬0 > (bs.length : Int) ∧ ¬0 > (bs.length : Int) + 1 := by omega
  have hhandler : ∀ (w : World) (qty : Int), (handler ct).bind (fun f => f (w.unread ⟨more, false⟩) qty) =
      ((handler ct).bind fun f => f (w.unread ⟨[], false⟩) qty).map (afterResult [] ⟨more, false⟩) := by
    intro w qty
    cases hf : handler ct with
    | none => rfl
    | some f =>
      have hmoved : f (World.after [] ⟨more, false⟩ (w.unread ⟨[], false⟩)) qty =
          (f (w.unread ⟨[], false⟩) qty).map (afterResult [] ⟨more, false⟩) := after_handler hf qty
      exact hmoved
  simp only [cloop, cloop.read, hz, hstdin, hlen, input_whole, hwhole]
  split
  · simp only [if_neg hpos.2]
    exact hhandler { w with inbuf := w.inbuf.store 1 bs } _
  · simp only [if_neg hpos.1]
    exact hhandler { w with inbuf := w.inbuf.store 0 bs } _

/-- What is still to be read is what `input` left. -/
theorem cloop_left {nxt : Mcctyp} {w' : World} (hr : cloop w ct = some (nxt, w')) :
    w'.stdin = (input w.stdin (mcctlen w.z.session ct)).2.2 := (cloop_grows hr).2

/-- An iteration that met no end of the input is the same one, whatever comes after what it has read. -/
theorem cloop_anew {nxt : Mcctyp} {w' : World} (hct : ct ≠ .invalid) (hr : cloop w ct = some (nxt, w'))
    (heof : w'.stdin.eof = false) : ∃ bs, w.stdin = ⟨bs ++ w'.stdin.rest, false⟩ ∧
      ∀ more, cloop (w.unread ⟨bs ++ more, false⟩) ct = some (nxt, w'.unread ⟨more, false⟩) := by
  have hleft := cloop_left hr
  obtain ⟨hstdin, hlen⟩ := input_left (mcctlen_nonneg w.z.session hct) (hleft ▸ heof)
  rw [← hleft] at hstdin
  refine ⟨_, hstdin, fun more => ?_⟩
  have hw : w = w.unread ⟨(input w.stdin (mcctlen w.z.session ct)).2.1 ++ w'.stdin.rest, false⟩ :=
    congrArg (fun s => w.unread s) hstdin
  rw [hw, unread_cloop hlen] at hr
  obtain ⟨r, hr, heq⟩ := Option.map_eq_some_iff.mp hr
  rw [unread_cloop hlen, hr]
  exact congrArg (fun r => some (r.1, r.2.unread ⟨more, false⟩)) heq

/-- The answer comes after what was given away before. -/
theorem answer_grows {t : Iter} (hok : start.loop.Ok t) : t.w.stdout ++ t.out = t.w'.stdout := by
  obtain ⟨⟨outs, houts⟩, -⟩ := cloop_grows hok.2
  have hout : t.w'.stdout = t.w.stdout ++ outs.flatten := (congrArg List.flatten houts).trans List.flatten_append
  rw [Iter.out, hout, List.drop_left]

end Loop

/-! ### Runs -/

section Runs
variable {ldefault : Ptr} {ldsize : Int16} {lddim : Mcvec} {stdin : List UInt8} {h : List Iter} {s : Mcctyp × World}

/-- A run that met no end of the input is one on every input that starts with what it has read. -/
theorem starts_anew [P : Platform] (hrun : Starts ldefault ldsize lddim stdin h s) : s.2.stdin.eof = false →
    ∃ got, stdin = got ++ s.2.stdin.rest ∧ ∀ more, ∃ h',
      Starts ldefault ldsize lddim (got ++ more) h' (s.1, s.2.unread ⟨more, false⟩) ∧ h'.map Iter.out = h.map Iter.out := by
  refine hrun.inv (fun h s => s.2.stdin.eof = false → ∃ got, stdin = got ++ s.2.stdin.rest ∧ ∀ more, ∃ h',
    Starts ldefault ldsize lddim (got ++ more) h' (s.1, s.2.unread ⟨more, false⟩) ∧ h'.map Iter.out = h.map Iter.out)
    (fun _ => ⟨[], rfl, fun more => ⟨[], .start, rfl⟩⟩) fun h t ih hok heof => ?_
  obtain ⟨bs, hread, hanew⟩ := cloop_anew hok.1 hok.2 heof
  obtain ⟨got, rfl, hmore⟩ := ih (congrArg Stdin.eof hread)
  refine ⟨got ++ bs, ?_, fun more => ?_⟩
  · rw [List.append_assoc]
    exact congrArg (fun s : Stdin => got ++ s.rest) hread
  · obtain ⟨h', hrun', hout⟩ := hmore (bs ++ more)
    rw [← List.append_assoc] at hrun'
    refine ⟨⟨t.ct, t.w.unread ⟨bs ++ more, false⟩, t.nxt, t.w'.unread ⟨more, false⟩⟩ :: h', ?_, ?_⟩
    · exact Run.next (S := start.loop) _ hrun' ⟨hok.1, hanew more⟩
    · rw [List.map_cons, List.map_cons, hout]
      rfl

/-- What each iteration gives away, and the state that is reached, follow from what was read. -/
theorem starts_causal (ldefault : Ptr) (ldsize : Int16) (lddim : Mcvec) (got more more' : List UInt8) (outs : List (List UInt8))
    (ct : Mcctyp) (w : World) :
    (∃ h, Starts ldefault ldsize lddim (got ++ more) h (ct, w.unread ⟨more, false⟩) ∧ h.map Iter.out = outs) ↔
      ∃ h, Starts ldefault ldsize lddim (got ++ more') h (ct, w.unread ⟨more', false⟩) ∧ h.map Iter.out = outs := by
  have himp : ∀ more more', (∃ h, Starts ldefault ldsize lddim (got ++ more) h (ct, w.unread ⟨more, false⟩) ∧
      h.map Iter.out = outs) → ∃ h, Starts ldefault ldsize lddim (got ++ more') h (ct, w.unread ⟨more', false⟩) ∧
      h.map Iter.out = outs := by
    rintro more more' ⟨h, hrun, rfl⟩
    obtain ⟨got', hgot, hanew⟩ := starts_anew hrun rfl
    rw [List.append_cancel_right hgot]
    exact hanew more'
  exact ⟨himp more more', himp more' more⟩

end Runs

end ClassicX
