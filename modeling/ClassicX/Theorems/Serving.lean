import ClassicX.Theorems.Frame
import ClassicX.Theorems.Handlers

/-! Every run of the server keeps the session and the loop in step: the type that `cloop` is called with is the
one the reader waits for, unless an entity state was cut short by the end of the input. -/

namespace ClassicX

/-- The state of a run between two iterations. -/
structure Serves (ct : Mcctyp) (w : World) : Prop where
  fit : Fit w
  keeps : ct ≠ .invalid → Keeps w.z.session.r
  sync : ct ≠ .invalid → w.z.session.r.type = ct ∨ ct = .evtno ∧ w.stdin.rest = [] ∧ w.stdin.eof = true

/-! ### What an iteration does -/

/-- A name is saved before it is answered. -/
def World.saved (w : World) (ct : Mcctyp) : World := if ct = .name then (ctname.save w).2 else w

section Outcomes
variable {w w' : World} {t ct nxt : Mcctyp} {ps : List (List UInt8)}

theorem saved_kept (w : World) (ct : Mcctyp) : (w.saved ct).kept = w.kept := by
  rw [World.saved]
  split <;> rfl

theorem saved_stdout (w : World) (ct : Mcctyp) : (w.saved ct).stdout = w.stdout := by
  rw [World.saved]
  split <;> rfl

theorem saved_fit (ct : Mcctyp) (hfit : Fit w) : Fit (w.saved ct) := by
  rw [World.saved]
  split
  · exact save_fit hfit
  · exact hfit

theorem Outcome.gave (h : Outcome w t ct ps nxt w') (hfit : Fit w) : Gave (w.saved ct) ps w' := by
  have hother : ∀ {ct : Mcctyp}, ct ≠ .name → w.saved ct = w := fun h => if_neg h
  cases h with
  | silent h =>
    rw [hother (by rcases h with rfl | rfl | rfl | ⟨rfl | rfl, -⟩ <;> decide)]
    exact (Replies.refl hfit.idle).toGave
  | rejected _ hp _ => exact hp.toGave
  | named _ _ => exact (Replies.refl (w := (ctname.save w).2) hfit.idle).toGave
  | greeted _ _ hp => exact hp
  | joined hct _ _ hp =>
    rw [hother (by rcases hct with rfl | rfl <;> decide)]
    exact hp
  | built _ hp _ => exact hp.toGave
  | waited _ hp _ => exact hp.toGave
  | played _ hp => exact hp
  | spoke _ hp _ => exact hp.toGave

theorem Outcome.next (h : Outcome w t ct ps nxt w') : nxt = t ∨ ct = .actrstat ∧ nxt = .evtno := by
  cases h with
  | waited _ _ _ => exact Or.inr ⟨rfl, rfl⟩
  | played _ _ => exact Or.inr ⟨rfl, rfl⟩
  | _ => exact Or.inl rfl

/-- A name that something follows is saved, whatever its length. -/
theorem ctname_goes_on {w₀ : World} {qty : Int} {v : Option Val} (hread : w₀.mcsread qty false = some (t, w, v)) (ht : t ≠ .evtno)
    (hfit : Fit w) : ∃ w', ctname w₀ qty = some (t, w') ∧ Fit w' ∧ w'.z.cent.enam ≠ none ∧ w'.kept = w.kept := by
  obtain ⟨w', hr⟩ : ∃ w', ctname w₀ qty = some (t, w') := by
    by_cases hlong : Long w.inbuf
    · obtain ⟨w', hr, -⟩ := ctname_long hread hfit.idle hlong
      exact ⟨w', hr⟩
    · rw [ctname_short hread hlong]
      exact ⟨_, respond_silent ht⟩
  obtain ⟨ps, ho⟩ := ctname_outcome hread hfit hr
  have hgave := ho.gave hfit
  have hsaved : (w.saved .name).z.cent.enam ≠ none := Option.some_ne_none _
  have henam : w'.z.cent.enam = (w.saved .name).z.cent.enam := congrArg Prod.fst hgave.name
  exact ⟨w', hr, hgave.fit (saved_fit _ hfit), henam ▸ hsaved, hgave.kept.trans (saved_kept _ _)⟩

end Outcomes

/-! ### Reading -/

section Reading
variable {stdin : Stdin} {qty : Int}

theorem input_end (hrest : stdin.rest = []) (h : stdin.eof = true ∨ 0 < qty) : (input stdin qty).1 = -1 := by
  simp only [input, hrest, List.take_nil]
  refine if_pos ⟨trivial, ?_⟩
  simp only [List.length_nil, Bool.or_eq_true, decide_eq_true_eq]
  exact h.imp_right fun h => by omega

/-- What is left of the standard input when a read was short. -/
theorem input_short (h : 0 ≤ (input stdin qty).1) (hshort : (input stdin qty).1 < qty) :
    (input stdin qty).2.2.rest = [] ∧ (input stdin qty).2.2.eof = true := by
  simp only [input] at h hshort ⊢
  split at hshort
  · rename_i hend
    rw [if_pos hend] at h
    cases h
  · rw [List.length_take] at hshort
    refine ⟨List.drop_eq_nil_iff.mpr (by omega), ?_⟩
    rw [Bool.or_eq_true, decide_eq_true_eq, List.length_take]
    exact Or.inr (by omega)

/-- A read that is not at the end takes something off the standard input. -/
theorem input_shorter (hrest : stdin.rest ≠ []) (h : 0 < qty) :
    0 < (input stdin qty).1 ∧ (input stdin qty).2.2.rest.length < stdin.rest.length := by
  have hlen := List.length_pos_iff.mpr hrest
  have htake : stdin.rest.take qty.toNat ≠ [] := by
    rw [← List.length_pos_iff, List.length_take]
    omega
  simp only [input]
  rw [if_neg fun h => htake h.1, List.length_take, List.length_drop]
  omega

end Reading

/-- Only the name of a version 0 greeting is read without its first character. -/
theorem mcctlen_short {s : Mcx} {ct : Mcctyp} :
    mcctlen s ct = MCSTRLEN - 1 ↔ 0 = s.curpv ∧ .greeting = s.r.evt ∧ .name = ct := by
  rw [mcctlen]
  by_cases hname : 0 = s.curpv ∧ .greeting = s.r.evt ∧ .name = ct
  · have hpv : MCPVMAX ≥ s.curpv := by
      rw [← hname.1]
      decide
    rw [if_pos hpv, if_pos hname, ← hname.2.2]
    exact ⟨fun _ => ⟨hname.1, hname.2.1, rfl⟩, fun _ => rfl⟩
  · refine ⟨fun h => ?_, fun h => absurd h hname⟩
    rw [if_neg hname] at h
    split at h
    · cases ct <;> cases h
    · cases h

namespace Iter
variable (t : Iter)

def asks : Int := mcctlen t.w.z.session t.ct

theorem qty_eq : t.qty = (input t.w.stdin t.asks).1 + if t.asks = MCSTRLEN - 1 then 1 else 0 := by
  rw [qty, cloop.read, asks]
  by_cases h : mcctlen t.w.z.session t.ct = MCSTRLEN - 1
  · simp only [if_pos h, if_pos h.symm]
  · simp only [if_neg h, if_neg (Ne.symm h), add_zero]

theorem rd_z : t.rd.z = t.w.z := by
  simp only [rd, cloop.read]
  split <;> rfl

theorem rd_name : t.rd.name = t.w.name := congrArg (fun z : Cli => (z.cent.enam, z.cent.enln)) t.rd_z

theorem rd_flg : t.rd.z.flg = t.w.z.flg := congrArg Cli.flg t.rd_z

theorem rd_stdout : t.rd.stdout = t.w.stdout := congrArg List.flatten read_outputs

theorem rd_stdin : t.rd.stdin = (input t.w.stdin t.asks).2.2 := read_stdin

theorem rd_fit (hfit : Fit t.w) : Fit t.rd := by
  obtain ⟨hidle, hlevel, hname⟩ := hfit
  rw [← t.rd_z] at hidle hlevel hname
  exact ⟨hidle, hlevel, hname⟩

variable {t}

/-- A step of a run, by whether `cloop` calls the handler. -/
theorem cases (hs : Serves t.ct t.w) (hok : start.loop.Ok t) :
    t.qty < 0 ∧ t.nxt = .invalid ∧ t.w' = t.rd ∨
    0 ≤ t.qty ∧ t.w.z.session.r.type = t.ct ∧ ∃ s dst v ps,
      mcsread t.w.z.session t.rd.inbuf t.qty dst = some (s.r.type, s, v) ∧ (s.r.type = .invalid ∨ Keeps s.r) ∧
      Outcome (t.rd.withSession s) s.r.type t.ct ps t.nxt t.w' := by
  obtain ⟨hct, hrun⟩ := hok
  have hcloop : cloop t.w t.ct = if 0 > t.qty then some (.invalid, t.rd) else (handler t.ct).bind fun f => f t.rd t.qty := rfl
  rw [hcloop] at hrun
  by_cases hneg : 0 > t.qty
  · rw [if_pos hneg] at hrun
    obtain ⟨hnxt, hw⟩ := Prod.mk.inj (Option.some.inj hrun)
    exact Or.inl ⟨hneg, hnxt.symm, hw.symm⟩
  · rw [if_neg hneg] at hrun
    obtain ⟨f, hf, hrun⟩ := Option.bind_eq_some_iff.mp hrun
    have htype : t.w.z.session.r.type = t.ct := (hs.sync hct).resolve_right fun ⟨hevtno, hrest, heof⟩ => by
      have hasks : t.asks ≠ MCSTRLEN - 1 := by
        intro h
        have := (mcctlen_short.mp h).2.2
        rw [hevtno] at this
        cases this
      rw [t.qty_eq, input_end hrest (Or.inl heof), if_neg hasks] at hneg
      exact hneg (by decide)
    have hkeeps := hs.keeps hct
    rw [← t.rd_z] at hkeeps htype ⊢
    exact Or.inr ⟨by omega, htype, handler_outcome (t.rd_fit hs.fit) hkeeps htype hf (by omega) hrun⟩

/-- An iteration that calls a handler: what it leaves, and what it gives away. -/
theorem gave {s : Mcx} {ps : List (List UInt8)} (hfit : Fit t.w) (hs : s.w = t.w.z.session.w)
    (ho : Outcome (t.rd.withSession s) s.r.type t.ct ps t.nxt t.w') :
    Gave ((t.rd.withSession s).saved t.ct) ps t.w' ∧ Fit t.w' := by
  have hfit : Fit (t.rd.withSession s) :=
    ⟨⟨hs ▸ hfit.idle.1, hs ▸ hfit.idle.2⟩, (t.rd_fit hfit).level, (t.rd_fit hfit).name⟩
  exact ⟨ho.gave hfit, (ho.gave hfit).fit (saved_fit t.ct hfit)⟩

/-- What an iteration does to the reader and to the standard input. -/
theorem called (hs : Serves t.ct t.w) (hok : start.loop.Ok t) :
    t.qty < 0 ∧ t.nxt = .invalid ∧ t.w' = t.rd ∨
    0 ≤ t.qty ∧ t.w.z.session.r.type = t.ct ∧ ∃ s dst v,
      mcsread t.w.z.session t.rd.inbuf t.qty dst = some (s.r.type, s, v) ∧
      (t.nxt = s.r.type ∨ t.ct = .actrstat ∧ t.nxt = .evtno) ∧ t.w'.z.session.r = s.r ∧
      t.w'.z.session.curpv = s.curpv ∧ t.w'.stdin = (input t.w.stdin t.asks).2.2 := by
  refine (Iter.cases hs hok).imp_right ?_
  rintro ⟨hqty, htype, s, dst, v, ps, hread, -, ho⟩
  have hkept := (Iter.gave hs.fit (mcsread_frame hread).2.1 ho).1.kept.trans (saved_kept _ _)
  exact ⟨hqty, htype, s, dst, v, hread, ho.next, kept_reader hkept, kept_curpv hkept,
    (kept_stdin hkept).trans t.rd_stdin⟩

end Iter

/-- The packets the iteration gave away are such that `Q`. -/
def Iter.Outputs (t : Iter) (Q : List (List UInt8) → Prop) : Prop :=
  ∃ ps, (∀ p ∈ ps, p ∈ packets t.w'.z.session.curpv) ∧ ps.flatten = t.out ∧ Q ps

theorem outputs_iff {t : Iter} {ps : List (List UInt8)} {Q : List (List UInt8) → Prop} (hout : t.out = ps.flatten)
    (hps : ∀ p ∈ ps, p ∈ packets t.w'.z.session.curpv) : t.Outputs Q ↔ Q ps := by
  constructor
  · rintro ⟨qs, hqs, hflat, hq⟩
    have hsame : qs = ps := Code.words_uniquelyDecodable _ _ _ hqs hps (hflat.trans hout)
    exact hsame ▸ hq
  · intro hq
    exact ⟨ps, hps, hout.symm, hq⟩

/-- An entity state that was not cut short is at its end. -/
theorem mcsread_actrstat {s s' : Mcx} {src : Ptr} {qty : Int} {dst : Bool} {t : Mcctyp} {v : Option Val}
    (htype : s.r.type = .actrstat) (h : mcsread s src qty dst = some (t, s', v)) :
    t = .evtno ∨ t = .actrstat ∧ qty < mcctlen s .actrstat := by
  simp only [mcsread, htype, ctrd, rctActorState, Option.bind_eq_bind, Option.bind_some] at h
  by_cases hshort : mcctlen s .actrstat > qty
  · rw [if_pos hshort] at h
    cases h
    exact Or.inr ⟨htype, hshort⟩
  · rw [if_neg hshort] at h
    cases dst with
    | false => cases h
    | true =>
      cases h
      exact Or.inl rfl

/-- A name is never followed by nothing. -/
theorem mcsread_name {s s' : Mcx} {src : Ptr} {qty : Int} {dst : Bool} {t : Mcctyp} {v : Option Val}
    (htype : s.r.type = .name) (h : mcsread s src qty dst = some (t, s', v)) : t ≠ .invalid := by
  simp only [mcsread, htype, ctrd, rctName, rctString_eq, Option.bind_eq_bind, Option.bind_some] at h
  cases h
  simp only [took]
  split_ifs
  · exact fun h => by cases h
  · exact fun h => by cases h
  · rw [htype]
    exact fun h => by cases h

theorem step_serves {t : Iter} (hs : Serves t.ct t.w) (hok : start.loop.Ok t) : Serves t.nxt t.w' := by
  rcases Iter.cases hs hok with ⟨-, hnxt, hw⟩ | ⟨hqty, htype, s, dst, v, ps, hread, hkeeps, ho⟩
  · rw [hnxt, hw]
    exact ⟨t.rd_fit hs.fit, fun h => absurd rfl h, fun h => absurd rfl h⟩
  · obtain ⟨hgave, hfit⟩ := Iter.gave hs.fit (mcsread_frame hread).2.1 ho
    have hkept := hgave.kept.trans (saved_kept _ _)
    have hr : t.w'.z.session.r = s.r := kept_reader hkept
    have hstdin : t.w'.stdin = (input t.w.stdin t.asks).2.2 := (kept_stdin hkept).trans t.rd_stdin
    rcases ho.next with hnxt | ⟨hct, hnxt⟩
    · rw [hnxt, ← hr]
      refine ⟨hfit, fun h => ?_, fun _ => Or.inl rfl⟩
      rw [hr] at h ⊢
      exact hkeeps.resolve_left h
    · rw [hct] at htype
      have hend := mcsread_actrstat htype hread
      refine ⟨hfit, fun _ => ?_, fun _ => ?_⟩
      · rw [hr]
        refine hkeeps.resolve_left fun h => ?_
        rw [h] at hend
        rcases hend with hend | ⟨hend, -⟩ <;> cases hend
      · rw [hr, hnxt]
        refine hend.imp_right fun ⟨_, hshort⟩ => ?_
        have hasks : t.asks ≠ MCSTRLEN - 1 := by
          intro h
          have := (mcctlen_short.mp h).2.2
          rw [hct] at this
          cases this
        rw [t.qty_eq, if_neg hasks, add_zero] at hqty hshort
        rw [hstdin]
        rw [← hct] at hshort
        exact ⟨rfl, input_short hqty hshort⟩

theorem csetup_serves (ldefault : Ptr) (ldsize : Int16) (lddim : Mcvec) (stdin : List UInt8) :
    Serves .evtno (csetup (lload ldefault ldsize lddim) stdin) := by
  have hname : -1 ≤ (0 : Int) ∧ (0 : Int) ≤ 20 := by decide
  exact ⟨⟨⟨rfl, rfl⟩, Int16.toInt_le ldsize, hname⟩, fun _ => keeps_fresh 0, fun _ => Or.inl rfl⟩

theorem starts_serves {ldefault : Ptr} {ldsize : Int16} {lddim : Mcvec} {stdin : List UInt8} {h : List Iter}
    {s : Mcctyp × World} (hrun : Starts ldefault ldsize lddim stdin h s) : Serves s.1 s.2 :=
  hrun.inv (fun _ s => Serves s.1 s.2) (csetup_serves ldefault ldsize lddim stdin) fun _ _ => step_serves

end ClassicX
