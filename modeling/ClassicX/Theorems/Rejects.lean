import ClassicX.Theorems.Names

/-! What a rejected client is told, and whether it joins. A name that is too long is told, but the client joins all the
same where the greeting goes on after its name, and a command gives it a spawn; a blank name and an unknown number
are not told. -/

namespace ClassicX
open Runs (Always)
open InformationTheory (UniquelyDecodable)

def noName : Ptr := cchr "You don't have a name!"

def badNumber : Ptr := cchr "Invalid packet number!"

namespace Iter
variable (t : Iter)

def Overlong : Prop := t.ct = .name ∧ 0 ≤ t.qty ∧ Long t.rd.inbuf

def Nameless : Prop := t.ct = .name ∧ 0 ≤ t.qty ∧ Blank t.rd.inbuf

def Unknown : Prop :=
  t.ct = .evtno ∧ mcctlen t.w.z.session .evtno ≤ t.qty ∧ 0 ≤ t.qty ∧ cedecode (t.rd.inbuf 0).toNat = .nothing

/-- An error that there is the goodbye text `msg` for. -/
def Meets (msg : Ptr) : Prop := t.Overlong ∧ msg = tooLong ∨ t.Nameless ∧ msg = noName ∨ t.Unknown ∧ msg = badNumber

/-- The iteration reads the end of a greeting, which depends on the version. -/
def Completes : Prop :=
  0 ≤ t.qty ∧ match t.ct with
    | .name => t.w.z.session.curpv < 3 ∧ t.w.z.session.r.rem ≤ t.qty
    | .pass => t.w.z.session.curpv < 6 ∧ t.w.z.session.r.rem ≤ t.qty
    | .cflgs => mcctlen t.w.z.session .cflgs ≤ t.qty
    | _ => False

/-- The message `/r` or `/s`. -/
def Spawns : Prop := t.ct = .msg ∧ 0 ≤ t.qty ∧ Respawns t.rd

end Iter

/-- The last name is one that the server takes. -/
def Acceptable (h : List Iter) : Prop := ∃ name, lastName h = some name ∧ ¬Long name ∧ ¬Blank name

/-- An error was met, and no greeting with a name that the server takes was completed since. -/
def Rejected : List Iter → Prop
  | [] => False
  | t :: h => (∃ msg, t.Meets msg) ∨ Rejected h ∧ ¬(t.Completes ∧ Acceptable (t :: h))

/-- A client that meets an error is told, and does not join until it is taken. -/
def Tells (h : List Iter) (t : Iter) : Prop :=
  (∀ msg, t.Meets msg → t.Outputs fun ps => goodbye t.w'.z.session.curpv msg ∈ ps) ∧ (Rejected (t :: h) → t.Outputs Quiet)

/-- No unknown number, no blank name, no greeting that is completed after its name was too long, and no `/r` or `/s` of
    a rejected client. -/
def Heeds (h : List Iter) (t : Iter) : Prop :=
  ¬t.Unknown ∧ ¬t.Nameless ∧ (t.ct ≠ .name → t.Completes → ∀ name, lastName h = some name → ¬Long name) ∧
    (Rejected h → ¬t.Spawns)

/-! ### Packets of an iteration -/

theorem quiet_nil : Quiet [] := fun _ hp => nomatch hp

theorem transcript_joins (v : Int) (l : Lvl) : ¬Quiet (transcript v l) := fun hq =>
  hq (packet v .pgreeting (.gto (segreeting.grt v))) (by simp [transcript]) (joins_packet.mpr (Or.inl rfl))

theorem goodbye_not_transcript (v v' : Int) (l : Lvl) (msg : Ptr) : goodbye v' msg ∉ transcript v l := by
  have hne : ∀ {e : Mcsevt} {src : Src}, e ≠ .pbye → e ≠ .edied → goodbye v' msg ≠ packet v e src := by
    intro e src hbye hdied h
    have hhead := congrArg List.head? h
    rw [goodbye, head_packet, head_packet, if_neg (by simp), if_neg fun hd => hdied hd.1.symm] at hhead
    cases e <;> first | exact hbye rfl | exact absurd hhead (by decide)
  intro hmem
  simp only [transcript, List.mem_append, List.mem_cons, List.not_mem_nil, or_false, List.mem_map] at hmem
  rcases hmem with ((h | h) | ⟨j, -, h⟩) | h | h | h | h
  · exact hne (by simp) (by simp) h
  · exact hne (by simp) (by simp) h
  · exact hne (by simp) (by simp) h.symm
  all_goals exact hne (by simp) (by simp) h

/-! ### Ends of greetings -/

/-- A string is at its end when nothing remains of it, and a greeting is if the version has no further field. -/
theorem took_evtno {next : Int → Mcseri Mccevt Mcctyp → Mcseri Mccevt Mcctyp} {s : Mcx} {qty l : Int} {t : Mcctyp}
    (htype : s.r.type ≠ .evtno) (ht : t ≠ .evtno)
    (hnext : ∀ r, (next s.curpv r).type = if l > s.curpv then .evtno else t) :
    (took next s (min qty s.r.rem)).type = .evtno ↔ s.curpv < l ∧ s.r.rem ≤ qty := by
  by_cases hz : 0 = s.r.rem - min qty s.r.rem
  · rw [took, if_pos hz, hnext]
    by_cases hlast : l > s.curpv
    · rw [if_pos hlast]
      exact ⟨fun _ => ⟨hlast, by omega⟩, fun _ => rfl⟩
    · rw [if_neg hlast]
      exact ⟨fun h => absurd h ht, fun h => absurd h.1 hlast⟩
  · rw [took, if_neg hz]
    exact ⟨fun h => absurd h htype, fun h => absurd h.2 (by omega)⟩

/-- A greeting ends where its last field does. -/
theorem completes_iff {t : Iter} {s : Mcx} {dst : Bool} {v : Option Val} (htype : t.w.z.session.r.type = t.ct)
    (hqty : 0 ≤ t.qty) (hread : mcsread t.w.z.session t.rd.inbuf t.qty dst = some (s.r.type, s, v))
    (hct : t.ct = .name ∨ t.ct = .pass ∨ t.ct = .cflgs) : t.Completes ↔ s.r.type = .evtno := by
  rw [Iter.Completes, and_iff_right hqty]
  rcases hct with hct | hct | hct <;> rw [hct] at htype ⊢
  · simp only [mcsread, htype, ctrd, rctName, rctString_eq, Option.bind_eq_bind, Option.bind_some, Option.some.injEq,
      Prod.mk.injEq] at hread
    rw [← hread.1, took_evtno (l := 3) (t := .pass) (by simp [htype]) (by decide)]
    intro r
    split <;> rfl
  · simp only [mcsread, htype, ctrd, rctPassword, rctString_eq, Option.bind_eq_bind, Option.bind_some, Option.some.injEq,
      Prod.mk.injEq] at hread
    rw [← hread.1, took_evtno (l := 6) (t := .cflgs) (by simp [htype]) (by decide)]
    intro r
    split <;> rfl
  · simp only [mcsread, htype, ctrd, rctClientFlags, Option.bind_eq_bind, Option.bind_some] at hread
    by_cases hshort : mcctlen t.w.z.session .cflgs > t.qty
    · simp only [if_pos hshort, Option.bind_some, Option.some.injEq, Prod.mk.injEq] at hread
      rw [← hread.1, htype]
      exact ⟨fun h => absurd h (by omega), fun h => by cases h⟩
    · simp only [if_neg hshort, Option.bind_some, Option.some.injEq, Prod.mk.injEq] at hread
      rw [← hread.1]
      exact ⟨fun _ => rfl, fun _ => by omega⟩

/-! ### The step -/

/-- What a run keeps while it heeds: a rejected client does not take part, and the last name is one that was rejected
    for, or one that is taken. -/
structure Keeping (h : List Iter) (s : Mcctyp × World) : Prop where
  serves : Serves s.1 s.2
  called : Called s.2 (lastName h)
  out : Rejected h → s.2.z.flg = 0
  named : ∀ name, lastName h = some name → ¬Blank name ∧ (Long name → Rejected h)

section Step
variable {h : List Iter} {t : Iter}

theorem Iter.rd_enam (t : Iter) : t.rd.z.cent.enam = t.w.z.cent.enam := congrArg (fun z : Cli => z.cent.enam) t.rd_z

/-- What a step that gives away `ps` has to do. -/
def Told (h : List Iter) (t : Iter) (ps : List (List UInt8)) : Prop :=
  (∀ msg, t.Meets msg → goodbye t.w'.z.session.curpv msg ∈ ps) ∧ (Rejected (t :: h) → Quiet ps)

/-- A field without a name or a number, that ends no greeting. -/
theorem told_other {ps : List (List UInt8)} (hct : t.ct = .blkch ∨ t.ct = .actrstat ∨ t.ct = .msg)
    (hquiet : Rejected h → (Quiet ps ↔ ¬t.Spawns)) : Told h t ps ↔ Heeds h t := by
  have hmeets : ∀ msg, ¬t.Meets msg := by
    rintro msg (⟨⟨h, -⟩, -⟩ | ⟨⟨h, -⟩, -⟩ | ⟨⟨h, -⟩, -⟩) <;> rw [h] at hct <;> simp at hct
  have hcompletes : ¬t.Completes := by
    rw [Iter.Completes]
    rcases hct with hct | hct | hct <;> rw [hct] <;> exact fun h => h.2
  have hrejected : Rejected (t :: h) ↔ Rejected h :=
    ⟨fun hr => hr.elim (fun ⟨msg, hmsg⟩ => absurd hmsg (hmeets msg)) And.left, fun hr => Or.inr ⟨hr, fun hc => hcompletes hc.1⟩⟩
  rw [Told, hrejected]
  constructor
  · rintro ⟨-, hq⟩
    refine ⟨fun h => hmeets _ (Or.inr (Or.inr ⟨h, rfl⟩)), fun h => hmeets _ (Or.inr (Or.inl ⟨h, rfl⟩)),
      fun _ h => absurd h hcompletes, fun hr => (hquiet hr).mp (hq hr)⟩
  · rintro ⟨-, -, -, hspawns⟩
    exact ⟨fun msg hmsg => absurd hmsg (hmeets msg), fun hr => (hquiet hr).mpr (hspawns hr)⟩

/-- A field that is answered with nothing. -/
theorem told_silent (hct : t.ct ≠ .name) (hmsg : t.ct ≠ .msg) (hcompletes : ¬t.Completes) : Told h t [] ↔ Heeds h t := by
  constructor
  · rintro ⟨htold, -⟩
    exact ⟨fun hu => (nomatch htold _ (Or.inr (Or.inr ⟨hu, rfl⟩))), fun hn => hct hn.1, fun _ h => absurd h hcompletes,
      fun _ hs => hmsg hs.1⟩
  · rintro ⟨hunknown, -⟩
    refine ⟨?_, fun _ => quiet_nil⟩
    rintro msg (⟨⟨h, -⟩, -⟩ | ⟨⟨h, -⟩, -⟩ | ⟨h, -⟩)
    · exact absurd h hct
    · exact absurd h hct
    · exact absurd h hunknown

/-- A name that is not too long is not told to be blank: it is accepted, which may end the greeting. -/
theorem told_name {ps : List (List UInt8)} (hct : t.ct = .name) (hqty : 0 ≤ t.qty) (hshort : ¬Long t.rd.inbuf)
    (hbye : ∀ msg, goodbye t.w'.z.session.curpv msg ∉ ps) (hquiet : ¬t.Completes → Quiet ps) : Told h t ps ↔ Heeds h t := by
  have hheeds : Heeds h t ↔ ¬t.Nameless := by
    refine ⟨fun hh => hh.2.1, fun hn => ⟨fun hu => ?_, hn, fun hne => absurd hct hne, fun _ hs => ?_⟩⟩
    · rw [hu.1] at hct
      cases hct
    · rw [hs.1] at hct
      cases hct
  rw [hheeds]
  constructor
  · rintro ⟨htold, -⟩ hn
    exact hbye _ (htold _ (Or.inr (Or.inl ⟨hn, rfl⟩)))
  · intro hn
    have hmeets : ∀ msg, ¬t.Meets msg := by
      rintro msg (⟨h, -⟩ | ⟨h, -⟩ | ⟨h, -⟩)
      · exact hshort h.2.2
      · exact hn h
      · rw [h.1] at hct
        cases hct
    refine ⟨fun msg hmsg => absurd hmsg (hmeets msg), ?_⟩
    rintro (⟨msg, hmsg⟩ | ⟨-, hno⟩)
    · exact absurd hmsg (hmeets msg)
    · refine hquiet fun hc => hno ⟨hc, t.rd.inbuf, ?_, hshort, fun hb => hn ⟨hct, hqty, hb⟩⟩
      rw [lastName, if_pos ⟨hct, hqty⟩]

/-- A name that is too long is told, and nothing else is given away. -/
theorem told_long (hct : t.ct = .name) (hlong : Long t.rd.inbuf) :
    Told h t [goodbye t.w'.z.session.curpv tooLong] ↔ Heeds h t := by
  have hblank : ¬t.Nameless := fun hn => hn.2.2.not_long hlong
  have hunknown : ¬t.Unknown := by
    intro hu
    rw [hu.1] at hct
    cases hct
  refine iff_of_true ⟨?_, fun _ => quiet_packet (by simp)⟩ ⟨hunknown, hblank, fun hne => absurd hct hne, fun _ hs => ?_⟩
  · rintro msg (⟨-, rfl⟩ | ⟨hn, -⟩ | ⟨hu, -⟩)
    · exact List.mem_singleton_self _
    · exact absurd hn hblank
    · exact absurd hu hunknown
  · rw [hs.1] at hct
    cases hct

/-- A greeting that ends after its name: the client joins, which it may unless its name was too long. -/
theorem told_joined (hk : Keeping h (t.ct, t.w)) (hct : t.ct = .pass ∨ t.ct = .cflgs) (hcompletes : t.Completes)
    (henam : t.w.z.cent.enam ≠ none) (v : Int) (l : Lvl) : Told h t (transcript v l) ↔ Heeds h t := by
  have hne : t.ct ≠ .name ∧ t.ct ≠ .evtno ∧ t.ct ≠ .msg := by
    rcases hct with hct | hct <;> rw [hct] <;> decide
  have hmeets : ∀ msg, ¬t.Meets msg := by
    rintro msg (⟨h, -⟩ | ⟨h, -⟩ | ⟨h, -⟩)
    · exact hne.1 h.1
    · exact hne.1 h.1
    · exact hne.2.1 h.1
  have hlast : lastName (t :: h) = lastName h := if_neg fun h => hne.1 h.1
  obtain ⟨name, hname⟩ : ∃ name, lastName h = some name := by
    cases hlast : lastName h with
    | none =>
      have hcalled := hk.called
      rw [hlast] at hcalled
      exact absurd (congrArg Prod.fst hcalled) henam
    | some name => exact ⟨name, rfl⟩
  obtain ⟨hblank, hlong⟩ := hk.named name hname
  have hrejected : Rejected (t :: h) ↔ Long name := by
    constructor
    · rintro (⟨msg, hmsg⟩ | ⟨-, hno⟩)
      · exact absurd hmsg (hmeets msg)
      · exact Classical.not_not.mp fun hshort => hno ⟨hcompletes, name, hlast.trans hname, hshort, hblank⟩
    · intro h
      refine Or.inr ⟨hlong h, fun ⟨_, name', hname', hshort, _⟩ => ?_⟩
      rw [hlast, hname] at hname'
      exact hshort (Option.some.inj hname' ▸ h)
  rw [Told, hrejected]
  constructor
  · rintro ⟨-, hquiet⟩
    refine ⟨fun hu => hne.2.1 hu.1, fun hn => hne.1 hn.1, fun _ _ name' hname' h => ?_, fun _ hs => hne.2.2 hs.1⟩
    rw [hname] at hname'
    exact transcript_joins v l (hquiet (Option.some.inj hname' ▸ h))
  · rintro ⟨-, -, hshort, -⟩
    exact ⟨fun msg hmsg => absurd hmsg (hmeets msg), fun h => absurd h (hshort hne.1 hcompletes name hname)⟩

/-- The client is told exactly if the iteration heeds, by what its handler does. -/
theorem told_iff {s : Mcx} {dst : Bool} {v : Option Val} {ps : List (List UInt8)} (hk : Keeping h (t.ct, t.w))
    (hqty : 0 ≤ t.qty) (htype : t.w.z.session.r.type = t.ct)
    (hread : mcsread t.w.z.session t.rd.inbuf t.qty dst = some (s.r.type, s, v))
    (ho : Outcome (t.rd.withSession s) s.r.type t.ct ps t.nxt t.w') : Told h t ps ↔ Heeds h t := by
  have hcompletes := completes_iff htype hqty hread
  have hflg : (t.rd.withSession s).z.flg = t.w.z.flg := t.rd_flg
  have henam : (t.rd.withSession s).z.cent.enam = t.w.z.cent.enam := t.rd_enam
  have hin : t.rd.inbuf = (t.rd.withSession s).inbuf := rfl
  generalize t.rd.withSession s = wr at ho hflg henam hin
  generalize hct : t.ct = ct at ho hcompletes
  generalize t.nxt = nxt at ho
  generalize s.r.type = ty at ho hcompletes
  generalize hw' : t.w' = w' at ho
  cases ho with
  | silent hsilent =>
    rcases hsilent with rfl | rfl | rfl | ⟨hgreeting, hty⟩
    · exact told_silent (by simp [hct]) (by simp [hct]) (by simp [Iter.Completes, hct])
    · exact told_silent (by simp [hct]) (by simp [hct]) (by simp [Iter.Completes, hct])
    · exact told_silent (by simp [hct]) (by simp [hct]) (by simp [Iter.Completes, hct])
    · refine told_silent ?_ ?_ fun hc => hty ((hcompletes (Or.inr hgreeting)).mp hc) <;>
        rcases hgreeting with rfl | rfl <;> simp [hct]
  | rejected hlong hp _ =>
    have hcurpv : wr.z.session.curpv = t.w'.z.session.curpv := by
      rw [hw']
      exact hp.curpv.symm
    rw [hcurpv]
    exact told_long hct (hin ▸ hlong)
  | named hshort hty =>
    exact told_name hct hqty (hin ▸ hshort) (fun _ => nofun) fun _ => quiet_nil
  | greeted hshort hty _ =>
    exact told_name hct hqty (hin ▸ hshort) (fun _ => goodbye_not_transcript _ _ _ _) fun hno =>
      absurd ((hcompletes (Or.inl rfl)).mpr hty) hno
  | joined hgreeting hty hsome _ =>
    rw [henam] at hsome
    exact told_joined hk (hct ▸ hgreeting) ((hcompletes (Or.inr hgreeting)).mpr hty) hsome _ _
  | built _ _ hquiet =>
    exact told_other (Or.inl hct) fun _ => iff_of_true hquiet fun hs => nomatch hct.symm.trans hs.1
  | waited _ _ hquiet =>
    exact told_other (Or.inr (Or.inl hct)) fun _ => iff_of_true hquiet fun hs => nomatch hct.symm.trans hs.1
  | played hplays _ =>
    exact told_other (Or.inr (Or.inl hct)) fun hr => absurd (hflg.trans (hk.out hr)) hplays
  | spoke _ _ hquiet =>
    refine told_other (Or.inr (Or.inr hct)) fun _ => ?_
    rw [hquiet, Iter.Spawns, Respawns, Respawns, hin]
    exact not_congr ⟨fun h => ⟨hct, hqty, h⟩, fun h => h.2.2⟩

/-- An iteration that calls no handler meets no error. -/
theorem Iter.Meets.qty {msg : Ptr} (hmsg : t.Meets msg) : 0 ≤ t.qty := by
  rcases hmsg with ⟨h, -⟩ | ⟨h, -⟩ | ⟨h, -⟩
  · exact h.2.1
  · exact h.2.1
  · exact h.2.2.1

theorem tells_iff (hk : Keeping h (t.ct, t.w)) (hok : start.loop.Ok t) : Tells h t ↔ Heeds h t := by
  rcases Iter.cases hk.serves hok with ⟨hqty, -, hw⟩ | ⟨hqty, htype, s, dst, v, ps, hread, -, ho⟩
  · have hout : t.out = ([] : List (List UInt8)).flatten := by
      rw [Iter.out, hw, t.rd_stdout, List.drop_length]
      rfl
    refine iff_of_true ⟨fun msg hmsg => ?_, fun _ => ?_⟩ ⟨fun h => ?_, fun h => ?_, fun _ h => ?_, fun _ h => ?_⟩
    · have := hmsg.qty
      omega
    · rw [outputs_iff hout fun _ hp => nomatch hp]
      exact quiet_nil
    · have := h.2.2.1
      omega
    · have := h.2.1
      omega
    · have := h.1
      omega
    · have := h.2.1
      omega
  · have hgave := (Iter.gave hk.serves.fit (mcsread_frame hread).2.1 ho).1
    have hout : t.out = ps.flatten := by
      have hstdout : t.w'.stdout = t.w.stdout ++ ps.flatten := by
        rw [hgave.out, saved_stdout, ← t.rd_stdout]
        rfl
      rw [Iter.out, hstdout, List.drop_left]
    have hps : ∀ p ∈ ps, p ∈ packets t.w'.z.session.curpv := by
      rw [hgave.curpv]
      exact hgave.words
    rw [Tells]
    simp only [outputs_iff hout hps]
    exact told_iff hk hqty htype hread ho

/-- Who is out stays out of the game until it joins. -/
theorem Outcome.out {wr w' : World} {ty ct nxt : Mcctyp} {ps : List (List UInt8)} (ho : Outcome wr ty ct ps nxt w')
    (hquiet : Quiet ps) (hflg : ct = .name ∧ Long wr.inbuf ∨ wr.z.flg = 0) : w'.z.flg = 0 := by
  have hother : ct ≠ .name → wr.z.flg = 0 := fun hne => hflg.resolve_left fun h => hne h.1
  cases ho with
  | silent hct => exact hother (by rcases hct with rfl | rfl | rfl | ⟨rfl | rfl, -⟩ <;> decide)
  | rejected _ _ hzero => exact hzero
  | named hshort _ => exact hflg.resolve_left fun h => hshort h.2
  | greeted _ _ _ => exact absurd hquiet (transcript_joins _ _)
  | joined _ _ _ _ => exact absurd hquiet (transcript_joins _ _)
  | built _ hp _ => exact hp.flg (hother (by decide))
  | waited _ hp _ => exact hp.flg (hother (by decide))
  | played hplays _ => exact absurd (hother (by decide)) hplays
  | spoke _ hp _ => exact hp.flg (hother (by decide))

theorem step_keeping (hk : Keeping h (t.ct, t.w)) (hok : start.loop.Ok t) (hheeds : Heeds h t) :
    Keeping (t :: h) (t.nxt, t.w') where
  serves := step_serves hk.serves hok
  called := step_called hk.serves hk.called hok
  out hr := by
    -- The only error that an iteration which heeds may meet is a name that is too long.
    have hcause : t.Overlong ∨ Rejected h := by
      rcases hr with ⟨msg, ⟨h, -⟩ | ⟨h, -⟩ | ⟨h, -⟩⟩ | ⟨hr, -⟩
      · exact Or.inl h
      · exact absurd h hheeds.2.1
      · exact absurd h hheeds.1
      · exact Or.inr hr
    rcases Iter.cases hk.serves hok with ⟨hqty, -, hw⟩ | ⟨hqty, htype, s, dst, v, ps, hread, -, ho⟩
    · have hr : Rejected h := hcause.resolve_left fun h => by
        have := h.2.1
        omega
      rw [hw]
      exact t.rd_flg.trans (hk.out hr)
    · have htold := (told_iff hk hqty htype hread ho).mpr hheeds
      refine ho.out (htold.2 hr) ?_
      exact hcause.imp (fun h => ⟨h.1, h.2.2⟩) fun hr => t.rd_flg.trans (hk.out hr)
  named name hname := by
    rw [lastName] at hname
    split at hname
    · rename_i hct
      obtain rfl := Option.some.inj hname
      exact ⟨fun hb => hheeds.2.1 ⟨hct.1, hct.2, hb⟩, fun hl => Or.inl ⟨_, Or.inl ⟨⟨hct.1, hct.2, hl⟩, rfl⟩⟩⟩
    · rename_i hct
      obtain ⟨hblank, hlong⟩ := hk.named name hname
      refine ⟨hblank, fun hl => Or.inr ⟨hlong hl, ?_⟩⟩
      rintro ⟨-, name', hname', hshort, -⟩
      rw [lastName, if_neg hct, hname] at hname'
      exact hshort (Option.some.inj hname' ▸ hl)

end Step

/-- In a run, every error is told and no rejected client joins exactly where every iteration heeds. -/
theorem tells_iff_heeds {ldefault : Ptr} {ldsize : Int16} {lddim : Mcvec} {stdin : List UInt8} {h : List Iter}
    {s : Mcctyp × World} (hrun : Starts ldefault ldsize lddim stdin h s) : Always Tells h ↔ Always Heeds h := by
  have hcalled : Called (csetup (lload ldefault ldsize lddim) stdin) none := rfl
  have hinit : Keeping [] (.evtno, csetup (lload ldefault ldsize lddim) stdin) :=
    ⟨csetup_serves ldefault ldsize lddim stdin, hcalled, nofun, nofun⟩
  exact hrun.always_iff Keeping hinit (fun _ _ => step_keeping) fun _ _ => tells_iff

/-- A greeting of version 3 with a name of one letter. -/
theorem tells_iff_heeds_greeting : ∃ h : List Iter, h.length = 4 ∧ (Always Tells h ↔ Always Heeds h) :=
  ⟨_, rfl, tells_iff_heeds (starts_steps (fun _ => 0) 0 {} (0 :: 3 :: 65 :: List.replicate 127 32) 4)⟩

/-- A greeting of version 3 with a name of 64 letters: the client is told that its name is too long, and joins when
    the password was read. -/
theorem rejected_joins : ∃ (h : List Iter) (s : Mcctyp × World),
    Starts (fun _ => 0) 0 {} (0 :: 3 :: List.replicate 128 65) h s ∧ ¬Always Tells h := by
  refine ⟨_, _, starts_steps (fun _ => 0) 0 {} (0 :: 3 :: List.replicate 128 65) 4, ?_⟩
  have hshape : ∃ t₁ t₂ h, (start.steps 4 [] (.evtno, csetup (lload (fun _ => 0) 0 {}) (0 :: 3 :: List.replicate 128 65))).1 =
      t₂ :: t₁ :: h ∧ t₁.ct = .name ∧ 0 ≤ t₁.qty ∧ t₁.rd.inbuf (20 : ℕ) = 65 ∧ t₂.ct = .pass ∧ t₂.out.head? = some 0 :=
    ⟨_, _, _, rfl, rfl, by decide, rfl, rfl, by decide +kernel⟩
  obtain ⟨t₁, t₂, h, hsteps, hname, hqty, hbyte, hpass, hout⟩ := hshape
  rw [hsteps]
  rintro ⟨-, -, hquiet⟩
  have hlong : Long t₁.rd.inbuf := ⟨20, le_rfl, by decide, by rw [hbyte]; decide⟩
  have hrejected : Rejected (t₁ :: h) := Or.inl ⟨_, Or.inl ⟨⟨hname, hqty, hlong⟩, rfl⟩⟩
  have hlast : lastName (t₂ :: t₁ :: h) = some t₁.rd.inbuf := by
    rw [lastName, if_neg (by simp [hpass]), lastName, if_pos ⟨hname, hqty⟩]
  have hnot : ¬Acceptable (t₂ :: t₁ :: h) := by
    rintro ⟨name, hlast', hshort, -⟩
    rw [hlast] at hlast'
    exact hshort (Option.some.inj hlast' ▸ hlong)
  obtain ⟨ps, hps, hflat, hq⟩ := hquiet (Or.inr ⟨hrejected, fun hc => hnot hc.2⟩)
  -- The first packet starts with the number of a greeting.
  cases ps with
  | nil =>
    rw [← hflat] at hout
    cases hout
  | cons p ps =>
    obtain ⟨num, hnum, -⟩ := hps p List.mem_cons_self
    rw [← hflat, List.flatten_cons, List.head?_append, Option.mem_def.mp hnum] at hout
    refine hq p List.mem_cons_self (Or.inl ?_)
    exact (Option.mem_def.mp hnum).trans hout

end ClassicX
