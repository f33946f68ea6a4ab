import ClassicX.Theorems.Streams

/-! The end of the input. A field of fixed size that is cut short changes nothing, but for a block update and an entity
state, whose handlers answer it. A read that gives nothing stops the server, but in a version 0 name. -/

namespace ClassicX
open Runs (Run Always)

/-- `cloop` where `input` answers with `i`, stores `bytes`, and leaves `stdin`. -/
def cloop.given (w : World) (nxt : Mcctyp) (i : Int) (bytes : List UInt8) (stdin : Stdin) : Option (Mcctyp × World) :=
  let (qty, w) :=
    if MCSTRLEN - 1 = mcctlen w.z.session nxt then (i + 1, { w with inbuf := w.inbuf.store 1 bytes, stdin := stdin })
    else (i, { w with inbuf := w.inbuf.store 0 bytes, stdin := stdin })
  if 0 > qty then some (.invalid, w)
  else do (← handler nxt) w qty

theorem cloop_given (w : World) (nxt : Mcctyp) :
    cloop w nxt =
      let r := input w.stdin (mcctlen w.z.session nxt)
      cloop.given w nxt r.1 r.2.1 r.2.2 := rfl

/-! ### Fields that are cut short -/

theorem Outcome.next_actrstat {w w' : World} {t nxt : Mcctyp} {ps : List (List UInt8)}
    (h : Outcome w t .actrstat ps nxt w') : nxt = .evtno := by
  cases h with
  | silent h => rcases h with h | h | h | ⟨h | h, -⟩ <;> cases h
  | joined h => rcases h with h | h <;> cases h
  | waited _ _ _ => rfl
  | played _ _ => rfl

def Fixed (t : Mcctyp) : Prop := t = .version ∨ t = .blkch ∨ t = .actrno ∨ t = .actrstat ∨ t = .cflgs

/-- The iteration answers with the type it was called with, gives nothing away, and leaves the player as it was. -/
def Idles (w : World) (ct : Mcctyp) (r : Option (Mcctyp × World)) : Prop :=
  ∃ w', r = some (ct, w') ∧ w'.stdout = w.stdout ∧ w'.z.cent = w.z.cent ∧ w'.z.flg = w.z.flg ∧
    w'.z.session.curpv = w.z.session.curpv

theorem mcsread_short (src : Ptr) (dst : Bool) {s : Mcx} {qty : Int} (hfixed : Fixed s.r.type)
    (hshort : qty < mcctlen s s.r.type) : mcsread s src qty dst = some (s.r.type, s, none) := by
  rcases hfixed with ht | ht | ht | ht | ht <;> rw [ht] at hshort
  all_goals
    simp only [mcsread, ht, ctrd, rctVersion, rctBlockChange, rctActorNumber, rctActorState, rctClientFlags, if_pos hshort,
      Option.bind_eq_bind, Option.bind_some]

/-- A field that is cut short changes nothing exactly if it is not the update of a block or the state of an entity. -/
theorem truncated_iff {ldefault : Ptr} {ldsize : Int16} {lddim : Mcvec} {stdin : List UInt8} {h : List Iter} {ct : Mcctyp}
    {w : World} (hrun : Starts ldefault ldsize lddim stdin h (ct, w)) (hfixed : Fixed ct)
    (bytes : List UInt8) (hshort : (bytes.length : Int) < mcctlen w.z.session ct) (left : Stdin) :
    Idles w ct (cloop.given w ct bytes.length bytes left) ↔ ct ≠ .blkch ∧ ct ≠ .actrstat := by
  have hs : Serves ct w := starts_serves hrun
  have hct : ct ≠ .invalid := by rcases hfixed with rfl | rfl | rfl | rfl | rfl <;> decide
  have htype : w.z.session.r.type = ct := (hs.sync hct).resolve_right fun h => by
    rw [h.1] at hfixed
    simp [Fixed] at hfixed
  have hlen : MCSTRLEN - 1 ≠ mcctlen w.z.session ct := by
    intro h
    rw [← (mcctlen_short.mp h.symm).2.2] at hfixed
    simp [Fixed] at hfixed
  have hpos : ¬0 > (bytes.length : Int) := by omega
  -- The state that the handler is called with.
  obtain ⟨w₁, hgiven, hz, hout⟩ : ∃ w₁ : World,
      cloop.given w ct bytes.length bytes left = (handler ct).bind (fun f => f w₁ bytes.length) ∧ w₁.z = w.z ∧
        w₁.stdout = w.stdout := by
    refine ⟨{ w with inbuf := w.inbuf.store 0 bytes, stdin := left }, ?_, rfl, rfl⟩
    simp only [cloop.given, if_neg hlen, if_neg hpos, Option.bind_eq_bind]
  rw [hgiven, Idles, ← hz, ← hout]
  rw [← hz] at htype hshort
  have hfit : Fit w₁ := ⟨hz ▸ hs.fit.idle, hz ▸ hs.fit.level, hz ▸ hs.fit.name⟩
  have hread : ∀ dst, w₁.mcsread bytes.length dst = some (ct, w₁, none) := by
    intro dst
    have hr := mcsread_short w₁.inbuf dst (htype.symm ▸ hfixed) (htype.symm ▸ hshort)
    simp only [World.mcsread, hr, Option.bind_eq_bind, Option.bind_some, htype]
    rfl
  rcases hfixed with rfl | rfl | rfl | rfl | rfl
  case inr.inl =>
    -- A block update of zeros is echoed.
    refine iff_of_false ?_ fun h => h.1 rfl
    rintro ⟨w', hr, hsame, -⟩
    by_cases henam : w₁.z.cent.enam = none
    · rw [handler, Option.bind_some, ctblkch_none (hread true) henam] at hr
      cases hr
    · obtain ⟨w₂, hr₂, hspoke⟩ := ctblkch_says (hread true) hfit.idle henam
      rw [handler, Option.bind_some, hr₂] at hr
      cases hr
      obtain ⟨bs, hbs⟩ := hspoke.pinged rfl
      rw [hsame] at hbs
      simp at hbs
  case inr.inr.inr.inl =>
    -- The state of an entity is answered, and a packet number is read next.
    refine iff_of_false ?_ fun h => h.2 rfl
    rintro ⟨w', hr, -⟩
    obtain ⟨ps, ho⟩ := ctactrstat_outcome (hread true) hfit hr
    cases ho.next_actrstat
  case inl =>
    refine iff_of_true ⟨w₁, ?_, rfl, rfl, rfl, rfl⟩ (by decide)
    simp only [handler, ctversion, hread true, Option.bind_eq_bind, Option.bind_some]
  case inr.inr.inl =>
    refine iff_of_true ⟨w₁, ?_, rfl, rfl, rfl, rfl⟩ (by decide)
    simp only [handler, ctactrno, hread false, Option.bind_eq_bind, Option.bind_some]
  case inr.inr.inr.inr =>
    refine iff_of_true ⟨w₁, ?_, rfl, rfl, rfl, rfl⟩ (by decide)
    simp only [handler, ctcflg, hread true, Option.bind_eq_bind, Option.bind_some]
    exact respond_silent (by decide)

/-- The number of an entity, of which nothing was read. -/
theorem truncated_iff_actrno : ∃ (h : List Iter) (w : World), Starts (fun _ => 0) 0 {} [8] h (.actrno, w) ∧
    (Idles w .actrno (cloop.given w .actrno 0 [] ⟨[], true⟩) ↔ Mcctyp.actrno ≠ .blkch ∧ Mcctyp.actrno ≠ .actrstat) :=
  have hrun := starts_steps (fun _ => 0) 0 {} [8] 1
  ⟨_, _, hrun, truncated_iff hrun (Or.inr (Or.inr (Or.inl rfl))) [] (by decide) ⟨[], true⟩⟩

/-- The state of an entity that ends after 3 of its 8 bytes is answered with a ping. -/
theorem state_cut_answered : ∃ (h : List Iter) (w w' : World), Starts (fun _ => 0) 0 {} [8, 255, 1, 2, 3] h (.actrstat, w) ∧
    w.z.session.curpv = 0 ∧ cloop w .actrstat = some (.evtno, w') ∧ w'.stdout = [1] ∧ ¬Idles w .actrstat (cloop w .actrstat) := by
  refine ⟨_, _, _, starts_steps (fun _ => 0) 0 {} [8, 255, 1, 2, 3] 2, rfl, rfl, by decide, ?_⟩
  rintro ⟨w', hr, -⟩
  cases hr

/-! ### The end of the input -/

/-- The iteration stops the server: it has changed the standard input and `in` at most. -/
def Stops (w : World) (r : Option (Mcctyp × World)) : Prop :=
  ∃ w', r = some (.invalid, w') ∧ w' = { w with inbuf := w'.inbuf, stdin := w'.stdin }

section Name
variable {w : World}

/-- The reader stands in a name of which something remains. -/
structure InName (w : World) : Prop where
  fit : Fit w
  keeps : Keeps w.z.session.r
  type : w.z.session.r.type = .name

/-- A name of which nothing is read is saved, and read on. -/
theorem ctname_nothing (h : InName w) : ∃ w', ctname w 0 = some (.name, w') ∧ InName w' ∧
    w'.z.session.curpv = w.z.session.curpv ∧ w'.stdin = w.stdin := by
  have hstores : Stores w.z.session.r.type → false = true := by simp [Stores, h.type]
  obtain ⟨s, v, hread, hkeeps⟩ := mcsread_keeps w.inbuf h.keeps le_rfl hstores
  have hrem := (h.keeps.rem (Or.inl h.type)).1
  have htype : s.r.type = .name := (mcsread_string_more hread (Or.inl h.type) (by omega)).trans h.type
  obtain ⟨-, hw, hpv⟩ := mcsread_frame hread
  have hcurpv : s.curpv = w.z.session.curpv := by
    rw [hpv, readpv, if_neg]
    rw [h.type]
    simp
  have hfit : Fit (w.withSession s) := ⟨⟨hw ▸ h.fit.idle.1, hw ▸ h.fit.idle.2⟩, h.fit.level, h.fit.name⟩
  have hwread : w.mcsread 0 false = some (.name, w.withSession s, v) := by
    simp only [World.mcsread, hread, htype, Option.bind_eq_bind, Option.bind_some]
  obtain ⟨w', hr, hfit', -, hkept⟩ := ctname_goes_on hwread (by decide) hfit
  have hr' : w'.z.session.r = s.r := kept_reader hkept
  refine ⟨w', hr, ⟨hfit', ?_, ?_⟩, (kept_curpv hkept).trans hcurpv, kept_stdin (w := w.withSession s) hkept⟩
  · rw [hr']
    exact hkeeps.resolve_left (by rw [htype]; decide)
  · rw [hr', htype]

end Name

/-- The loop reads nothing of a name, over and over: its version is not known, or its first character took the place of
    the version and the input has ended. -/
def Stalled (s : Mcctyp × World) : Prop :=
  s.1 = .name ∧ InName s.2 ∧
    (¬s.2.z.session.curpv ≤ MCPVMAX ∧ s.2.stdin.eof = false ∨ s.2.z.session.curpv = 0 ∧ s.2.stdin.rest = [])

theorem stalled_goes (s : Mcctyp × World) (h : Stalled s) :
    ∃ t : Iter, start.loop.pre t = s ∧ start.loop.Ok t ∧ Stalled (start.loop.post t) := by
  obtain ⟨ct, w⟩ := s
  obtain ⟨rfl, hname, hstall⟩ := h
  have hread : (cloop.read w .name).1 = 0 ∧ (cloop.read w .name).2.z = w.z ∧
      (¬w.z.session.curpv ≤ MCPVMAX ∧ (cloop.read w .name).2.stdin.eof = false ∨
        w.z.session.curpv = 0 ∧ (cloop.read w .name).2.stdin.rest = []) := by
    rcases hstall with ⟨hpv, heof⟩ | ⟨hpv, hrest⟩
    · have hlen : mcctlen w.z.session .name = 0 := if_neg hpv
      have hne : MCSTRLEN - 1 ≠ 0 := by decide
      have heof : w.stdin.eof = false := heof
      simp only [cloop.read, hlen, if_neg hne, input, Int.toNat_zero, List.take_zero, List.length_nil, Nat.lt_irrefl]
      exact ⟨by simp [heof], trivial, Or.inl ⟨hpv, by simp [heof]⟩⟩
    · have hlen : mcctlen w.z.session .name = MCSTRLEN - 1 :=
        mcctlen_short.mpr ⟨hpv.symm, hname.keeps.greeting hname.type, rfl⟩
      have hend : (input w.stdin (MCSTRLEN - 1)).1 = -1 := input_end hrest (Or.inr (by decide))
      simp only [cloop.read, hlen, if_pos]
      exact ⟨by rw [hend]; rfl, trivial, Or.inr ⟨hpv, input_nil hrest⟩⟩
  obtain ⟨hqty, hz, hstall⟩ := hread
  have hread : InName (cloop.read w .name).2 :=
    ⟨⟨hz ▸ hname.fit.idle, hz ▸ hname.fit.level, hz ▸ hname.fit.name⟩, hz ▸ hname.keeps, hz ▸ hname.type⟩
  obtain ⟨w', hr, hname', hcurpv, hstdin⟩ := ctname_nothing hread
  refine ⟨⟨.name, w, .name, w'⟩, rfl, ⟨by simp, ?_⟩, rfl, hname', ?_⟩
  · have hpos : ¬0 > (0 : Int) := by decide
    simp only [cloop, hqty, if_neg hpos, handler, hr, Option.bind_eq_bind, Option.bind_some]
  · rw [hz] at hcurpv
    rw [start.loop_post, hcurpv, hstdin]
    exact hstall

/-- The bytes that are still to be read, and the turn that meets their end. -/
def unread (s : Mcctyp × World) : ℕ := if s.1 = .invalid then 0 else s.2.stdin.rest.length + 1

section Stops
variable {ldefault : Ptr} {ldsize : Int16} {lddim : Mcvec} {stdin : List UInt8} {h : List Iter} {t : Iter}

theorem starts_stops {ct : Mcctyp} {w : World} (hrun : Starts ldefault ldsize lddim stdin h (ct, w)) (hct : ct ≠ .invalid)
    (left : Stdin) : Stops w (cloop.given w ct (-1) [] left) ↔ ¬(ct = .name ∧ w.z.session.curpv = 0) := by
  have hs : Serves ct w := starts_serves hrun
  have htype : ct = .name → w.z.session.r.type = ct := fun h => (hs.sync hct).resolve_right fun h' => by
    rw [h'.1] at h
    cases h
  by_cases hshort : MCSTRLEN - 1 = mcctlen w.z.session ct
  · -- The result of `input` is incremented before it is looked at.
    obtain ⟨hpv, -, rfl⟩ := mcctlen_short.mp hshort.symm
    refine iff_of_false ?_ (not_not.mpr ⟨rfl, hpv.symm⟩)
    rintro ⟨w', hr, -⟩
    have hname : InName { w with inbuf := w.inbuf.store 1 [], stdin := left } :=
      ⟨⟨hs.fit.idle, hs.fit.level, hs.fit.name⟩, hs.keeps hct, htype rfl⟩
    obtain ⟨w₁, hr₁, -⟩ := ctname_nothing hname
    have hpos : ¬0 > (-1 : Int) + 1 := by decide
    simp only [cloop.given, if_pos hshort, if_neg hpos, handler, Option.bind_eq_bind, Option.bind_some] at hr
    rw [show (-1 : Int) + 1 = 0 from rfl, hr₁] at hr
    cases hr
  · refine iff_of_true ⟨{ w with inbuf := w.inbuf.store 0 [], stdin := left }, ?_, rfl⟩ ?_
    · have hneg : 0 > (-1 : Int) := by decide
      simp only [cloop.given, if_neg hshort, if_pos hneg]
    · rintro ⟨rfl, hpv⟩
      exact hshort (mcctlen_short.mpr ⟨hpv.symm, (hs.keeps hct).greeting (htype rfl), rfl⟩).symm

theorem strange_stalls (hinv : Streams h t.ct t.w) (hknown : Known t.w.z.session.curpv) (hok : start.loop.Ok t)
    (hstrange : t.Strange) : Stalled (start.loop.pre t) ∨ Stalled (start.loop.post t) := by
  have hs := hinv.serves
  rcases hstrange with ⟨hct, b, hb, h8, h32⟩ | ⟨hct, hpv, hrest⟩
  · refine Or.inr ?_
    have hasks : t.asks = 1 := by
      rw [Iter.asks, hct, mcctlen_version hknown]
    obtain ⟨bs, hbs⟩ := List.head?_eq_some_iff.mp hb
    have hinput : input t.w.stdin 1 = (1, [b], ⟨bs, t.w.stdin.eof⟩) := by
      simp [input, hbs]
    have heof : t.w.stdin.eof = false := by
      cases heof : t.w.stdin.eof with
      | false => rfl
      | true =>
        have := hinv.ended heof
        rw [hbs] at this
        cases this
    have hqty : t.qty = 1 := by
      rw [t.qty_eq, hasks, hinput, if_neg (by decide)]
      rfl
    obtain ⟨-, htype, s, dst, v, hread, hnxt, hr, hcurpv, hstdin⟩ := (Iter.called hs hok).resolve_left fun h => by omega
    have hver := htype.trans hct
    have hlen : mcctlen t.w.z.session .version ≤ t.qty := by
      rw [mcctlen_version hknown, hqty]
    have hname := mcsread_version hver hlen hread
    have hnxt' : t.nxt = .name := by
      rcases hnxt with h | ⟨h, -⟩
      · exact h.trans hname
      · rw [hct] at h
        cases h
    have hs' := step_serves hs hok
    have hne : t.nxt ≠ .invalid := by
      rw [hnxt']
      decide
    refine ⟨hnxt', ⟨hs'.fit, hs'.keeps hne, hr ▸ hname⟩, Or.inl ⟨?_, ?_⟩⟩
    · have hbyte : t.rd.inbuf 0 = b := cloop_read_byte hasks hb
      have h8' : 8 ≤ b.toNat := UInt8.le_iff_toNat_le.mp h8
      rw [start.loop_post, hcurpv, (mcsread_frame hread).2.2, readpv, if_pos ⟨hver, hlen⟩, hbyte,
        if_pos h32, MCPVMAX]
      omega
    · rw [start.loop_post, hstdin, hasks, hinput]
      exact heof
  · refine Or.inl ⟨hct, ⟨hs.fit, hs.keeps hok.1, ?_⟩, Or.inr ⟨hpv, hrest⟩⟩
    refine ((hs.sync hok.1).resolve_right fun h => ?_).trans hct
    rw [hct] at h
    cases h.1

end Stops

/-- A read that gives nothing stops the server exactly where it does not read a version 0 name, and the server comes to
    an end exactly if it never meets the end of the input there, and never reads a version that is not known. -/
theorem end_stops_iff (ldefault : Ptr) (ldsize : Int16) (lddim : Mcvec) (stdin : List UInt8) :
    (∀ (h : List Iter) (ct : Mcctyp) (w : World) (left : Stdin), Starts ldefault ldsize lddim stdin h (ct, w) →
      ct ≠ .invalid → (Stops w (cloop.given w ct (-1) [] left) ↔ ¬(ct = .name ∧ w.z.session.curpv = 0))) ∧
    ((∃ n, ∀ (h : List Iter) (s : Mcctyp × World), Starts ldefault ldsize lddim stdin h s → h.length ≤ n) ↔
      ∀ (h : List Iter) (s : Mcctyp × World), Starts ldefault ldsize lddim stdin h s → Always (fun _ t => ¬t.Strange) h) := by
  refine ⟨fun h ct w left hrun hct => starts_stops hrun hct left, ?_⟩
  refine Run.bounded_iff (fun h s => Streams h s.1 s.2 ∧ Known s.2.z.session.curpv)
    unread Stalled ⟨csetup_streams ldefault ldsize lddim stdin, known_zero⟩ (fun h t hinv hok hk => ?_) (fun h t hinv hok hk => ?_)
    (fun h t hinv hok hk => strange_stalls hinv.1 hinv.2 hok (not_not.mp hk)) stalled_goes
  · exact ⟨step_streams hinv.1 hok, ((progresses_iff hinv.1.serves hinv.2 hok).mpr hk).2.1⟩
  · have hless := ((progresses_iff hinv.1.serves hinv.2 hok).mpr hk).2.2
    have hct : t.ct ≠ .invalid := hok.1
    simp only [start.loop_post, start.loop_pre, unread]
    by_cases hnxt : t.nxt = .invalid
    · simp [hct, hnxt]
    · simpa [hct, hnxt] using hless hnxt

/-- The first character of a name and the end of the input: `input` gives nothing, and the loop goes on with the name. -/
theorem name_cut_goes_on : ∃ (h : List Iter) (w w' : World), Starts (fun _ => 0) 0 {} [0, 65] h (.name, w) ∧
    (input w.stdin (mcctlen w.z.session .name)).1 = -1 ∧ cloop w .name = some (.name, w') ∧
    ¬Stops w (cloop w .name) := by
  refine ⟨_, _, _, starts_steps (fun _ => 0) 0 {} [0, 65] 2, rfl, rfl, ?_⟩
  rintro ⟨w', hr, -⟩
  cases hr

end ClassicX
