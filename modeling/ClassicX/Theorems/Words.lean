import ClassicX.Theorems.Causality
import ClassicX.Theorems.Heard

/-! On any input, the server gives away whole packets. -/

namespace ClassicX
open Formats Formats.Format
open Runs (Run)

/-- What an iteration gives away are whole packets of the version that the session has after it. -/
theorem out_heard {t : Iter} (hs : Serves t.ct t.w) (hok : start.loop.Ok t) :
    ∃ ts : List (Heard t.w'.z.session.curpv), t.out = ts.flatMap (Heard.form t.w'.z.session.curpv).write := by
  rcases Iter.utters hs hok with ⟨-, -, hout⟩ | ⟨-, -, s, dst, v, es, -, hcurpv, hout, hsendable, -⟩
  · exact ⟨[], hout⟩
  · obtain ⟨ts, hts⟩ := spells_some hsendable
    rw [hcurpv]
    exact ⟨ts, hout.trans hts.wire⟩

section Runs
variable {ldefault : Ptr} {ldsize : Int16} {lddim : Mcvec} {stdin : List UInt8} {h : List Iter} {s : Mcctyp × World}

/-- In every run, on any input, what was given away is what the iterations have given away, in order, and what each of them
    gave away is read at the version of the session without a rest. -/
theorem starts_speaks (hrun : Starts ldefault ldsize lddim stdin h s) : s.2.stdout = h.reverse.flatMap Iter.out ∧
    ∀ t ∈ h, ((Heard.form t.w'.z.session.curpv).all t.out).2 = [] := by
  have hinv : Serves s.1 s.2 ∧ s.2.stdout = h.reverse.flatMap Iter.out ∧
      ∀ t ∈ h, ((Heard.form t.w'.z.session.curpv).all t.out).2 = [] := by
    refine hrun.inv (fun h s => Serves s.1 s.2 ∧ s.2.stdout = h.reverse.flatMap Iter.out ∧
      ∀ t ∈ h, ((Heard.form t.w'.z.session.curpv).all t.out).2 = []) ⟨csetup_serves _ _ _ _, rfl, fun t ht => absurd ht List.not_mem_nil⟩ ?_
    rintro h t ⟨hs, hout, hall⟩ hok
    refine ⟨step_serves hs hok, ?_, fun u hu => ?_⟩
    · have hgrows := answer_grows hok
      rw [List.reverse_cons, List.flatMap_append, ← hout, List.flatMap_singleton]
      exact hgrows.symm
    · rcases List.mem_cons.mp hu with rfl | hu
      · obtain ⟨ts, hts⟩ := out_heard hs hok
        rw [hts, (Heard.proper _).all_flatMap]
      · exact hall u hu
  exact hinv.2

/-- A state before the greeting, and a packet that is cut short. -/
theorem starts_speaks_ping : ∃ (h : List Iter) (s : Mcctyp × World),
    Starts (fun _ => 0) 0 {} [8, 255, 0, 1, 2, 3, 4, 5, 6, 7, 5] h s ∧ s.2.stdout = [1] ∧
    ∀ t ∈ h, ((Heard.form t.w'.z.session.curpv).all t.out).2 = [] := by
  have hrun := starts_steps (fun _ => 0) 0 {} [8, 255, 0, 1, 2, 3, 4, 5, 6, 7, 5] 4
  exact ⟨_, _, hrun, by decide +kernel, (starts_speaks hrun).2⟩

end Runs

end ClassicX
