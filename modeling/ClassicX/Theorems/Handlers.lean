import ClassicX.Theorems.Reading
import ClassicX.Theorems.Speech

/-! What each handler does once `mcsread` has read. -/

namespace ClassicX

/-- A command that is answered with a spawn. -/
def Respawns (w : World) : Prop := w.inbuf 0 = 0x2F ∧ (w.inbuf 1 = 0x72 ∨ w.inbuf 1 = 0x73)

/-- What a handler of a type does where `mcsread` has left the state `w` and answered with `t`: what it gives
    away, its answer, and the state it leaves. -/
inductive Outcome (w : World) (t : Mcctyp) : Mcctyp → List (List UInt8) → Mcctyp → World → Prop
  | silent {ct : Mcctyp} (h : ct = .evtno ∨ ct = .version ∨ ct = .actrno ∨ (ct = .pass ∨ ct = .cflgs) ∧ t ≠ .evtno) :
      Outcome w t ct [] t w
  | rejected {w' : World} (h : Long w.inbuf) :
      Replies (ctname.save w).2 [goodbye w.z.session.curpv tooLong] w' → w'.z.flg = 0 →
      Outcome w t .name [goodbye w.z.session.curpv tooLong] t w'
  | named (h : ¬Long w.inbuf) (ht : t ≠ .evtno) : Outcome w t .name [] t (ctname.save w).2
  | greeted {w' : World} (h : ¬Long w.inbuf) (ht : t = .evtno) :
      Gave (ctname.save w).2 (transcript w.z.session.curpv w.z.lcur) w' →
      Outcome w t .name (transcript w.z.session.curpv w.z.lcur) t w'
  | joined {ct : Mcctyp} {w' : World} (hct : ct = .pass ∨ ct = .cflgs) (ht : t = .evtno) (henam : w.z.cent.enam ≠ none) :
      Gave w (transcript w.z.session.curpv w.z.lcur) w' → Outcome w t ct (transcript w.z.session.curpv w.z.lcur) t w'
  | built {ps : List (List UInt8)} {w' : World} (henam : w.z.cent.enam ≠ none) :
      Replies w ps w' → Quiet ps → Outcome w t .blkch ps t w'
  | waited {ps : List (List UInt8)} {w' : World} (h : w.z.flg = 0) :
      Replies w ps w' → Quiet ps → Outcome w t .actrstat ps .evtno w'
  | played {ps : List (List UInt8)} {w' : World} (h : w.z.flg ≠ 0) : Gave w ps w' → Outcome w t .actrstat ps .evtno w'
  | spoke {ps : List (List UInt8)} {w' : World} (henam : w.z.cent.enam ≠ none) :
      Replies w ps w' → (Quiet ps ↔ ¬Respawns w) → Outcome w t .msg ps t w'

section Handlers
variable {w w' : World} {t nxt : Mcctyp} {qty : Int} {v : Option Val}

/-! ### Greetings -/

theorem initseq_gave (hfit : Fit w) (henam : w.z.cent.enam ≠ none) :
    ∃ w', initseq w = some (0, w') ∧ Gave w (transcript w.z.session.curpv w.z.lcur) w' := by
  obtain ⟨w', hr, hputs⟩ := initseq_gives hfit.idle henam hfit.level
  have h := (hputs.replies (transcript_packets _ _)).toGave
  exact ⟨w', hr, h.out, h.words, h.idle, h.kept, h.name⟩

theorem respond_cases (hfit : Fit w) (hrun : respond w t = some (nxt, w')) :
    nxt = t ∧ (t ≠ .evtno ∧ w' = w ∨
      t = .evtno ∧ w.z.cent.enam ≠ none ∧ Gave w (transcript w.z.session.curpv w.z.lcur) w') := by
  rw [respond] at hrun
  split at hrun
  · rename_i ht
    cases hrun
    exact ⟨rfl, Or.inl ⟨fun h => ht h.symm, rfl⟩⟩
  · rename_i ht
    have henam : w.z.cent.enam ≠ none := by
      intro h
      rw [initseq_none h] at hrun
      cases hrun
    obtain ⟨w₁, hr, hgave⟩ := initseq_gave hfit henam
    rw [hr] at hrun
    cases hrun
    exact ⟨rfl, Or.inr ⟨(not_not.mp ht).symm, henam, hgave⟩⟩

theorem respond_outcome {ct : Mcctyp} (hct : ct = .pass ∨ ct = .cflgs) (hfit : Fit w)
    (hrun : respond w t = some (nxt, w')) : ∃ ps, Outcome w t ct ps nxt w' := by
  obtain ⟨rfl, ⟨ht, rfl⟩ | ⟨ht, henam, hgave⟩⟩ := respond_cases hfit hrun
  · exact ⟨_, .silent (by simp [hct, ht])⟩
  · exact ⟨_, .joined hct ht henam hgave⟩

theorem save_fit (hfit : Fit w) : Fit (ctname.save w).2 where
  idle := hfit.idle
  level := hfit.level
  name := by
    obtain ⟨hlong, hshort⟩ := save_length w
    show -1 ≤ (ctname.save w).1 ∧ (ctname.save w).1 ≤ 20
    by_cases h : Long w.inbuf
    · rw [hlong h]
      decide
    · have := hshort h
      omega

theorem ctname_outcome (hread : w'.mcsread qty false = some (t, w, v)) (hfit : Fit w) {w'' : World}
    (hrun : ctname w' qty = some (nxt, w'')) : ∃ ps, Outcome w t .name ps nxt w'' := by
  by_cases h : Long w.inbuf
  · obtain ⟨w₁, hr, hp⟩ := ctname_long hread hfit.idle h
    rw [hr] at hrun
    cases hrun
    have hreplies := hp.replies fun e he => by
      rw [List.mem_singleton.mp he]
      exact ⟨trivial, nofun⟩
    have hflg : w''.z.flg = 0 := by
      rw [hp.frame]
      rfl
    exact ⟨_, .rejected h ⟨hreplies.toGave.of_same rfl rfl rfl, fun _ => hflg⟩ hflg⟩
  · rw [ctname_short hread h] at hrun
    obtain ⟨rfl, ⟨ht, rfl⟩ | ⟨ht, -, hgave⟩⟩ := respond_cases (save_fit hfit) hrun
    · exact ⟨_, .named h ht⟩
    · exact ⟨_, .greeted h ht hgave⟩

/-! ### Block updates -/

theorem ctblkch_outcome (hread : w'.mcsread qty true = some (t, w, v)) (hfit : Fit w) {w'' : World}
    (hrun : ctblkch w' qty = some (nxt, w'')) : ∃ ps, Outcome w t .blkch ps nxt w'' := by
  by_cases henam : w.z.cent.enam = none
  · rw [ctblkch_none hread henam] at hrun
    cases hrun
  · obtain ⟨w₁, hr, hp⟩ := ctblkch_says hread hfit.idle henam
    rw [hr] at hrun
    cases hrun
    refine ⟨_, .built henam (hp.replies fun e he => ?_) (quiet_wire.mpr fun e he => ?_)⟩
    · simp only [List.mem_cons, List.not_mem_nil, or_false] at he
      rcases he with rfl | rfl <;> exact ⟨trivial, nofun⟩
    · simp only [List.mem_cons, List.not_mem_nil, or_false] at he
      rcases he with rfl | rfl <;> simp [ping]

/-! ### Entity states -/

theorem ctactrstat_outcome (hread : w'.mcsread qty true = some (t, w, v)) (hfit : Fit w) {w'' : World}
    (hrun : ctactrstat w' qty = some (nxt, w'')) : ∃ ps, Outcome w t .actrstat ps nxt w'' := by
  by_cases hflg : w.z.flg = 0
  · obtain ⟨w₁, hr, hp⟩ := ctactrstat_waits hread hfit.idle hflg
    rw [hr] at hrun
    cases hrun
    have hsendable : Sendable w.z.session.curpv [ping] := by
      intro e he
      rw [List.mem_singleton.mp he]
      exact ⟨trivial, nofun⟩
    have hp := hp.replies hsendable
    refine ⟨_, .waited hflg ⟨hp.toGave.of_same rfl rfl rfl, hp.flg⟩ (quiet_wire.mpr fun e he => ?_)⟩
    rw [List.mem_singleton.mp he]
    simp [ping]
  · by_cases hplay : w.Playable
    · obtain ⟨w₁, hr, hp⟩ := ctactrstat_says hread hfit.idle hfit.level hflg hplay
      rw [hr] at hrun
      cases hrun
      obtain ⟨hout, hkept, hname⟩ := played_same w w.z.cent.toMceup (ctactrstat.new v)
      have hcurpv : (w.played w.z.cent.toMceup (ctactrstat.new v)).z.session.curpv = w.z.session.curpv :=
        kept_curpv hkept
      have hsendable := plays_sendable w w.z.cent.toMceup (ctactrstat.new v)
      rw [← hcurpv] at hsendable
      exact ⟨_, .played hflg ((hp.replies hsendable).toGave.of_same hout hkept hname)⟩
    · rw [ctactrstat_plays hread hflg, joined_none _ _ hfit.idle hfit.name.1 hplay] at hrun
      cases hrun

/-! ### Messages -/

/-- The commands `/r` and `/s` are those with a spawn. -/
theorem commands_joins (w : World) (c : UInt8) :
    (∀ k ∈ commands w c, ¬(k = .pgreeting ∨ k = .ldata ∨ k = .enew)) ↔ ¬(c = 0x72 ∨ c = 0x73) := by
  have hr : c = 0x72 ↔ Char.ofNat c.toNat = 'r' := ofNat_eq_iff.symm
  have hs : c = 0x73 ↔ Char.ofNat c.toNat = 's' := ofNat_eq_iff.symm
  rw [hr, hs, commands]
  generalize Char.ofNat c.toNat = x
  split
  case h_1 => split <;> simp
  case h_11 => simp_all
  all_goals simp

theorem speeches_joins (w : World) :
    (∀ k ∈ speeches w, ¬(k = .pgreeting ∨ k = .ldata ∨ k = .enew)) ↔ ¬Respawns w := by
  rw [speeches, Respawns]
  by_cases hslash : w.inbuf 0 = 0x2F
  · rw [if_pos hslash, List.forall_mem_append, commands_joins]
    simp [hslash]
  · rw [if_neg hslash]
    simp [hslash]

theorem speeches_sendable (w : World) : .ediff ∉ speeches w := by
  rw [speeches, commands]
  split
  · rw [List.mem_append, not_or]
    refine ⟨?_, by simp⟩
    split
    case h_1 => split <;> simp
    all_goals simp
  · simp

theorem ctmsg_outcome (hread : w'.mcsread qty false = some (t, w, v)) (hfit : Fit w) (hqty : 0 ≤ qty) {w'' : World}
    (hrun : ctmsg w' qty = some (nxt, w'')) : ∃ ps, Outcome w t .msg ps nxt w'' := by
  by_cases hsay : w.Sayable
  · obtain ⟨w₁, hr, es, hp, hcasts, hes⟩ := ctmsg_speaks hread hfit.idle hqty hfit.name.2 hsay
    rw [hr] at hrun
    cases hrun
    have hsendable : ∀ v, Sendable v es := by
      intro v e he
      refine ⟨hcasts e he, fun hdiff => absurd ?_ (speeches_sendable w)⟩
      rw [← hes, ← hdiff]
      exact List.mem_map_of_mem he
    have hquiet : ∀ v, Quiet (wire v es) ↔ ¬Respawns w := by
      intro v
      rw [quiet_wire, ← speeches_joins, ← hes, List.forall_mem_map]
    obtain ⟨hout, hkept, hname, hflg⟩ := quits_same w
    have hp := hp.replies (hsendable _)
    refine ⟨_, .spoke hsay.1 ⟨hp.toGave.of_same hout hkept hname, fun h => hp.flg (hflg h)⟩ (hquiet _)⟩
  · rw [ctmsg_none hread hfit.idle hfit.name.1 hsay] at hrun
    cases hrun

/-! ### Every handler -/

theorem World.mcsread_keeps {ct : Mcctyp} {dst : Bool} (hfit : Fit w) (hkeeps : Keeps w.z.session.r)
    (htype : w.z.session.r.type = ct) (hqty : 0 ≤ qty) (hdst : Stores ct → dst = true) :
    ∃ s v, ClassicX.mcsread w.z.session w.inbuf qty dst = some (s.r.type, s, v) ∧
      w.mcsread qty dst = some (s.r.type, w.withSession s, v) ∧ (s.r.type = .invalid ∨ Keeps s.r) ∧ Fit (w.withSession s) := by
  obtain ⟨s, v, hr, hk⟩ := ClassicX.mcsread_keeps w.inbuf hkeeps hqty (htype.symm ▸ hdst)
  refine ⟨s, v, hr, ?_, hk, ?_, hfit.level, hfit.name⟩
  · simp only [World.mcsread, hr, Option.bind_eq_bind, Option.bind_some]
  · have hw := (mcsread_frame hr).2.1
    exact ⟨hw ▸ hfit.idle.1, hw ▸ hfit.idle.2⟩

/-- Whether the handler of a type gives `mcsread` a place to store to. -/
def Mcctyp.dst : Mcctyp → Bool
  | .name => false
  | .actrno => false
  | .msg => false
  | .pass => false
  | _ => true

theorem Stores.dst {ct : Mcctyp} (h : Stores ct) : ct.dst = true := by
  rcases h with rfl | rfl | rfl <;> rfl

/-- The handlers: three do nothing but read, two end a greeting, and the others have their own lemmas. -/
theorem handler_cases {ct : Mcctyp} {f : World → Int → Option (Mcctyp × World)} {w₀ : World} (hf : handler ct = some f)
    (hread : w₀.mcsread qty ct.dst = some (t, w, v)) :
    (ct = .evtno ∨ ct = .version ∨ ct = .actrno) ∧ f w₀ qty = some (t, w) ∨
    (ct = .pass ∨ ct = .cflgs) ∧ f w₀ qty = respond w t ∨
    ct = .name ∧ f = ctname ∨ ct = .blkch ∧ f = ctblkch ∨ ct = .actrstat ∧ f = ctactrstat ∨ ct = .msg ∧ f = ctmsg := by
  cases ct <;> cases hf <;> simp only [Mcctyp.dst] at hread
  case evtno => exact Or.inl ⟨by simp, by simp only [ctevtno, hread, Option.bind_eq_bind, Option.bind_some]⟩
  case version => exact Or.inl ⟨by simp, by simp only [ctversion, hread, Option.bind_eq_bind, Option.bind_some]⟩
  case actrno => exact Or.inl ⟨by simp, by simp only [ctactrno, hread, Option.bind_eq_bind, Option.bind_some]⟩
  case pass => exact Or.inr (Or.inl ⟨by simp, by simp only [ctpass, hread, Option.bind_eq_bind, Option.bind_some]⟩)
  case cflgs => exact Or.inr (Or.inl ⟨by simp, by simp only [ctcflg, hread, Option.bind_eq_bind, Option.bind_some]⟩)
  all_goals simp

/-- A handler is called with a session that keeps its state. -/
theorem handler_outcome {ct : Mcctyp} {f : World → Int → Option (Mcctyp × World)} (hfit : Fit w)
    (hkeeps : Keeps w.z.session.r) (htype : w.z.session.r.type = ct) (hf : handler ct = some f) (hqty : 0 ≤ qty)
    (hrun : f w qty = some (nxt, w')) :
    ∃ s dst v ps, mcsread w.z.session w.inbuf qty dst = some (s.r.type, s, v) ∧
      (s.r.type = .invalid ∨ Keeps s.r) ∧ Outcome (w.withSession s) s.r.type ct ps nxt w' := by
  obtain ⟨s, v, hr, hread, hk, hfit'⟩ := World.mcsread_keeps hfit hkeeps htype hqty Stores.dst
  suffices ho : ∃ ps, Outcome (w.withSession s) s.r.type ct ps nxt w' by
    obtain ⟨ps, ho⟩ := ho
    exact ⟨s, _, v, ps, hr, hk, ho⟩
  rcases handler_cases hf hread with ⟨hct, hsame⟩ | ⟨hct, hresponds⟩ | ⟨rfl, rfl⟩ | ⟨rfl, rfl⟩ | ⟨rfl, rfl⟩ | ⟨rfl, rfl⟩
  · rw [hsame] at hrun
    cases hrun
    exact ⟨_, .silent (by tauto)⟩
  · rw [hresponds] at hrun
    exact respond_outcome hct hfit' hrun
  · exact ctname_outcome hread hfit' hrun
  · exact ctblkch_outcome hread hfit' hrun
  · exact ctactrstat_outcome hread hfit' hrun
  · exact ctmsg_outcome hread hfit' hqty hrun

end Handlers

end ClassicX
