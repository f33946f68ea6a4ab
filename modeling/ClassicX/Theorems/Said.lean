import ClassicX.Theorems.Streams

/-! The events that an iteration gives away. -/

namespace ClassicX

/-- The answer to a greeting, where `mcsread` has answered with `t`. -/
def greets (w : World) (t : Mcctyp) : List Sent := if t = .evtno then joins w.z.session.curpv w.z.lcur else []

/-- The events `es` that the handler of a type gives away where `mcsread` has left the state `w`, has answered with `t`
    and has stored `v`. The events of a message are told by their kinds. -/
def Utters (w : World) (t : Mcctyp) (v : Option Val) (es : List Sent) : Mcctyp → Prop
  | .name => Long w.inbuf ∧ es = [bye tooLong] ∨ ¬Long w.inbuf ∧ es = greets w t
  | .pass => es = greets w t
  | .cflgs => es = greets w t
  | .blkch => es = [(.bupdate, .bup (echoed (ctblkch.upd v))), ping]
  | .actrstat => es = if w.z.flg = 0 then [ping] else plays w w.z.cent.toMceup (ctactrstat.new v)
  | .msg => es.map Prod.fst = speeches w
  | _ => es = []

section Handlers
variable {w w' : World} {t nxt ct : Mcctyp} {qty : Int} {v : Option Val}

/-- What a handler gives away from the state `w`. -/
structure Said (w : World) (es : List Sent) (w' : World) : Prop where
  out : w'.stdout = w.stdout ++ (wire w.z.session.curpv es).flatten
  curpv : w'.z.session.curpv = w.z.session.curpv
  sendable : Sendable w.z.session.curpv es

theorem Said.refl (w : World) : Said w [] w := ⟨(List.append_nil _).symm, rfl, sendable_nil _⟩

/-- What else there is of the state is not looked at. -/
theorem Says.said {w₁ : World} {es : List Sent} (h : Says w₁ es w') (hes : Sendable w.z.session.curpv es)
    (hout : w₁.stdout = w.stdout) (hcurpv : w₁.z.session.curpv = w.z.session.curpv) : Said w es w' where
  out := by rw [h.out, hout, hcurpv]
  curpv := h.curpv.trans hcurpv
  sendable := hes

theorem sendable_ping (v : Int) : Sendable v [ping] := by
  intro e he
  rw [List.mem_singleton.mp he]
  exact ⟨trivial, nofun⟩

theorem respond_said (hfit : Fit w) (hrun : respond w t = some (nxt, w')) : Said w (greets w t) w' := by
  rw [greets]
  by_cases ht : t = .evtno
  · rw [if_pos ht]
    rw [ht] at hrun
    have henam : w.z.cent.enam ≠ none := by
      intro h
      simp only [respond, initseq_none h, Option.bind_eq_bind, Option.bind_none] at hrun
      cases hrun
    obtain ⟨w₁, hr, hspoke⟩ := respond_says hfit.idle henam hfit.level
    rw [hr] at hrun
    cases hrun
    exact hspoke.said (joins_sendable _ _) rfl rfl
  · rw [if_neg ht]
    rw [respond_silent ht] at hrun
    cases hrun
    exact .refl w

theorem ctname_utters {w₀ : World} (hread : w₀.mcsread qty false = some (t, w, v)) (hfit : Fit w)
    (hrun : ctname w₀ qty = some (nxt, w')) : ∃ es, Said w es w' ∧ Utters w t v es .name := by
  by_cases hlong : Long w.inbuf
  · obtain ⟨w₁, hr, hspoke⟩ := ctname_long hread hfit.idle hlong
    rw [hr] at hrun
    cases hrun
    refine ⟨_, hspoke.said (fun e he => ?_) rfl rfl, Or.inl ⟨hlong, rfl⟩⟩
    rw [List.mem_singleton.mp he]
    exact ⟨trivial, nofun⟩
  · rw [ctname_short hread hlong] at hrun
    obtain ⟨hout, hcurpv, hes⟩ := respond_said (save_fit hfit) hrun
    exact ⟨_, ⟨hout, hcurpv, hes⟩, Or.inr ⟨hlong, rfl⟩⟩

theorem ctblkch_utters {w₀ : World} (hread : w₀.mcsread qty true = some (t, w, v)) (hfit : Fit w)
    (hrun : ctblkch w₀ qty = some (nxt, w')) : ∃ es, Said w es w' ∧ Utters w t v es .blkch := by
  by_cases henam : w.z.cent.enam = none
  · rw [ctblkch_none hread henam] at hrun
    cases hrun
  · obtain ⟨w₁, hr, hspoke⟩ := ctblkch_says hread hfit.idle henam
    rw [hr] at hrun
    cases hrun
    refine ⟨_, hspoke.said (fun e he => ?_) rfl rfl, rfl⟩
    simp only [List.mem_cons, List.not_mem_nil, or_false] at he
    rcases he with rfl | rfl <;> exact ⟨trivial, nofun⟩

theorem ctactrstat_utters {w₀ : World} (hread : w₀.mcsread qty true = some (t, w, v)) (hfit : Fit w)
    (hrun : ctactrstat w₀ qty = some (nxt, w')) : ∃ es, Said w es w' ∧ Utters w t v es .actrstat := by
  by_cases hflg : w.z.flg = 0
  · obtain ⟨w₁, hr, hspoke⟩ := ctactrstat_waits hread hfit.idle hflg
    rw [hr] at hrun
    cases hrun
    exact ⟨_, hspoke.said (sendable_ping _) rfl rfl, (if_pos hflg).symm⟩
  · by_cases hplay : w.Playable
    · obtain ⟨w₁, hr, hspoke⟩ := ctactrstat_says hread hfit.idle hfit.level hflg hplay
      rw [hr] at hrun
      cases hrun
      obtain ⟨hout, hkept, -⟩ := played_same w w.z.cent.toMceup (ctactrstat.new v)
      exact ⟨_, hspoke.said (plays_sendable _ _ _) hout (kept_curpv hkept), (if_neg hflg).symm⟩
    · rw [ctactrstat_plays hread hflg, joined_none _ _ hfit.idle hfit.name.1 hplay] at hrun
      cases hrun

theorem ctmsg_utters {w₀ : World} (hread : w₀.mcsread qty false = some (t, w, v)) (hfit : Fit w) (hqty : 0 ≤ qty)
    (hrun : ctmsg w₀ qty = some (nxt, w')) : ∃ es, Said w es w' ∧ Utters w t v es .msg := by
  by_cases hsay : w.Sayable
  · obtain ⟨w₁, hr, es, hspoke, hcasts, hes⟩ := ctmsg_speaks hread hfit.idle hqty hfit.name.2 hsay
    rw [hr] at hrun
    cases hrun
    obtain ⟨hout, hkept, -⟩ := quits_same w
    refine ⟨es, hspoke.said (fun e he => ⟨hcasts e he, fun hdiff => ?_⟩) hout (kept_curpv hkept), hes⟩
    refine absurd ?_ (speeches_sendable w)
    rw [← hes, ← hdiff]
    exact List.mem_map_of_mem he
  · rw [ctmsg_none hread hfit.idle hfit.name.1 hsay] at hrun
    cases hrun

/-- What the handler of a type gives away. -/
theorem handler_utters {f : World → Int → Option (Mcctyp × World)} (hfit : Fit w) (hkeeps : Keeps w.z.session.r)
    (htype : w.z.session.r.type = ct) (hf : handler ct = some f) (hqty : 0 ≤ qty) (hrun : f w qty = some (nxt, w')) :
    ∃ s dst v es, mcsread w.z.session w.inbuf qty dst = some (s.r.type, s, v) ∧ Said (w.withSession s) es w' ∧
      Utters (w.withSession s) s.r.type v es ct := by
  obtain ⟨s, v, hr, hread, -, hfit'⟩ := World.mcsread_keeps hfit hkeeps htype hqty Stores.dst
  suffices hsaid : ∃ es, Said (w.withSession s) es w' ∧ Utters (w.withSession s) s.r.type v es ct by
    obtain ⟨es, hes, hutters⟩ := hsaid
    exact ⟨s, _, v, es, hr, hes, hutters⟩
  rcases handler_cases hf hread with ⟨hct, hsame⟩ | ⟨hct, hresponds⟩ | ⟨rfl, rfl⟩ | ⟨rfl, rfl⟩ | ⟨rfl, rfl⟩ | ⟨rfl, rfl⟩
  · rw [hsame] at hrun
    cases hrun
    rcases hct with rfl | rfl | rfl <;> exact ⟨[], .refl _, rfl⟩
  · rw [hresponds] at hrun
    have hsaid := respond_said hfit' hrun
    rcases hct with rfl | rfl <;> exact ⟨_, hsaid, rfl⟩
  · exact ctname_utters hread hfit' hrun
  · exact ctblkch_utters hread hfit' hrun
  · exact ctactrstat_utters hread hfit' hrun
  · exact ctmsg_utters hread hfit' hqty hrun

end Handlers

/-- What an iteration gives away: nothing, if it read nothing, and else what its handler does. -/
theorem Iter.utters {t : Iter} (hs : Serves t.ct t.w) (hok : start.loop.Ok t) :
    t.qty < 0 ∧ t.nxt = .invalid ∧ t.out = [] ∨
    0 ≤ t.qty ∧ t.w.z.session.r.type = t.ct ∧ ∃ s dst v es,
      mcsread t.w.z.session t.rd.inbuf t.qty dst = some (s.r.type, s, v) ∧ t.w'.z.session.curpv = s.curpv ∧
      t.out = (wire s.curpv es).flatten ∧ Sendable s.curpv es ∧ Utters (t.rd.withSession s) s.r.type v es t.ct := by
  rcases Iter.called hs hok with ⟨hneg, hnxt, hw⟩ | ⟨hqty, htype, -⟩
  · refine Or.inl ⟨hneg, hnxt, ?_⟩
    rw [Iter.out, hw, t.rd_stdout, List.drop_length]
  · refine Or.inr ⟨hqty, htype, ?_⟩
    have hpos : ¬0 > t.qty := by omega
    have hcloop : cloop t.w t.ct = if 0 > t.qty then some (.invalid, t.rd) else (handler t.ct).bind fun f => f t.rd t.qty := rfl
    have hrun := hok.2
    rw [hcloop, if_neg hpos] at hrun
    obtain ⟨f, hf, hrun⟩ := Option.bind_eq_some_iff.mp hrun
    have hkeeps := hs.keeps hok.1
    rw [← t.rd_z] at hkeeps htype ⊢
    obtain ⟨s, dst, v, es, hread, hsaid, hutters⟩ := handler_utters (t.rd_fit hs.fit) hkeeps htype hf hqty hrun
    refine ⟨s, dst, v, es, hread, hsaid.curpv, ?_, hsaid.sendable, hutters⟩
    have hout : t.w'.stdout = t.rd.stdout ++ (wire s.curpv es).flatten := hsaid.out
    rw [Iter.out, hout, t.rd_stdout, List.drop_left]

end ClassicX
