import ClassicX.Theorems.Ends
import ClassicX.Theorems.Greetings

/-! The ping at the end of an answer. Every packet is answered by its last field, and the answer ends with a ping unless
it is a Goodbye to the name, or the name is not fit for it. -/

namespace ClassicX

/-- The iteration that reads the last field of the packet gives something away, and the last byte of it is the ping. -/
def Framed (w : World) (p : CPacket) (rest : List UInt8) : Prop :=
  ∃ ct w₁ w', Goes (.evtno, w) (p.parts.length - 1) (ct, w₁) ∧ ct ≠ .invalid ∧ cloop w₁ ct = some (.evtno, w') ∧
    w'.stdin.rest = rest ∧ (w'.stdout.drop w₁.stdout.length).getLast? = some 1

/-- A greeting that ends with its name has one that is not too long, and the name of the player is fit for the answer to
    any other packet. -/
def Pings (w : World) : CPacket → Prop
  | .greeting0 name _ => trimmed name.val ≤ 20
  | .greeting v _ name _ _ => 3 ≤ v ∨ trimmed name.val ≤ 20
  | .blkedit _ => w.z.cent.enam ≠ none
  | .plyrstat _ _ _ => w.z.flg = 0 ∨ w.Playable
  | .chatmsg _ msg => w.z.cent.enam ≠ none ∧
      (msg.val.getD 0 0 = 0x2F → msg.val.getD 1 0 = 0x73 → 0 ≤ w.z.cent.enln) ∧ (msg.val.getD 0 0 ≠ 0x2F → 0 ≤ w.z.cent.enln)

/-! ### Answers -/

/-- The answer `r` from the state `w` is at the end of a packet, and ends with a ping. -/
def Pinged (w : World) (r : Option (Mcctyp × World)) : Prop :=
  ∃ w', r = some (.evtno, w') ∧ w'.stdin.rest = w.stdin.rest ∧ (w'.stdout.drop w.stdout.length).getLast? = some 1

section Answers
variable {w w₀ w₁ w' : World} {qty : Int} {v : Option Val} {es : List Sent}

theorem Says.pings {r : Option (Mcctyp × World)} (h : Says w₁ es w') (hr : r = some (.evtno, w'))
    (hlast : (es.map Prod.fst).getLast? = some .ping) (hout : w₁.stdout = w.stdout) (hstdin : w₁.stdin = w.stdin) :
    Pinged w r := by
  obtain ⟨bs, hbs⟩ := h.pinged hlast
  refine ⟨w', hr, ?_, ?_⟩
  · rw [← hstdin, h.frame]
    rfl
  · rw [hbs, hout, List.drop_left, List.getLast?_concat]

theorem not_pinged_none : ¬Pinged w none := fun ⟨_, h, _⟩ => by cases h

theorem joins_last (v : Int) (l : Lvl) : ((joins v l).map Prod.fst).getLast? = some .ping := by
  rw [joins, List.map_append, List.getLast?_append]
  rfl

theorem plays_last (w : World) (old new : Mceup) : ((plays w old new).map Prod.fst).getLast? = some .ping := by
  simp only [plays, List.map_append, List.getLast?_append]
  by_cases h512 : w.ctr = 512 <;> by_cases h1024 : w.ctr ≥ 1024
  · rw [if_pos h1024, joins_last]
    rfl
  · rw [if_neg h1024, if_pos h512]
    rfl
  · rw [if_pos h1024, joins_last]
    rfl
  · rw [if_neg h1024, if_neg h512]
    rfl

theorem respond_pinged (hfit : Fit w) (henam : w.z.cent.enam ≠ none) : Pinged w (respond w .evtno) := by
  obtain ⟨w', hr, hspoke⟩ := respond_says hfit.idle henam hfit.level
  exact hspoke.pings hr (joins_last _ _) rfl rfl

theorem ctname_pinged (hread : w₀.mcsread qty false = some (.evtno, w, v)) (hfit : Fit w) :
    Pinged w (ctname w₀ qty) ↔ ¬Long w.inbuf := by
  by_cases hlong : Long w.inbuf
  · refine iff_of_false ?_ (not_not.mpr hlong)
    obtain ⟨w₁, hr, hspoke⟩ := ctname_long hread hfit.idle hlong
    rintro ⟨w', hr', -, hlast⟩
    obtain rfl : w₁ = w' := (Prod.mk.inj (Option.some.inj (hr.symm.trans hr'))).2
    have hout : w₁.stdout = w.stdout ++ (goodbye w.z.session.curpv tooLong) := by
      rw [hspoke.out, wire, List.map_singleton, List.flatten_singleton]
      rfl
    have hbye : (goodbye w.z.session.curpv tooLong).getLast? = some 0x20 := by
      rw [goodbye, packet_eq (by simp)]
      rfl
    rw [hout, List.drop_left, hbye] at hlast
    cases hlast
  · refine iff_of_true ?_ hlong
    rw [ctname_short hread hlong]
    exact respond_pinged (w := (ctname.save w).2) (save_fit hfit) (Option.some_ne_none _)

theorem ctblkch_pinged (hread : w₀.mcsread qty true = some (.evtno, w, v)) (hfit : Fit w) :
    Pinged w (ctblkch w₀ qty) ↔ w.z.cent.enam ≠ none := by
  by_cases henam : w.z.cent.enam = none
  · rw [ctblkch_none hread henam]
    exact iff_of_false not_pinged_none (not_not.mpr henam)
  · obtain ⟨w', hr, hspoke⟩ := ctblkch_says hread hfit.idle henam
    exact iff_of_true (hspoke.pings hr rfl rfl rfl) henam

theorem ctactrstat_pinged (hread : w₀.mcsread qty true = some (.evtno, w, v)) (hfit : Fit w) :
    Pinged w (ctactrstat w₀ qty) ↔ w.z.flg = 0 ∨ w.Playable := by
  by_cases hflg : w.z.flg = 0
  · obtain ⟨w', hr, hspoke⟩ := ctactrstat_waits hread hfit.idle hflg
    exact iff_of_true (hspoke.pings hr rfl rfl rfl) (Or.inl hflg)
  · by_cases hplay : w.Playable
    · obtain ⟨w', hr, hspoke⟩ := ctactrstat_says hread hfit.idle hfit.level hflg hplay
      obtain ⟨hout, hkept, -⟩ := played_same w w.z.cent.toMceup (ctactrstat.new v)
      exact iff_of_true (hspoke.pings hr (plays_last _ _ _) hout (kept_stdin hkept)) (Or.inr hplay)
    · rw [ctactrstat_plays hread hflg, joined_none _ _ hfit.idle hfit.name.1 hplay]
      exact iff_of_false not_pinged_none (not_or.mpr ⟨hflg, hplay⟩)

theorem ctmsg_pinged (hread : w₀.mcsread qty false = some (.evtno, w, v)) (hfit : Fit w) (hqty : 0 ≤ qty) :
    Pinged w (ctmsg w₀ qty) ↔ w.Sayable := by
  by_cases hsay : w.Sayable
  · obtain ⟨w', hr, es, hspoke, -, hes⟩ := ctmsg_speaks hread hfit.idle hqty hfit.name.2 hsay
    obtain ⟨hout, hkept, -⟩ := quits_same w
    have hlast : (es.map Prod.fst).getLast? = some .ping := by
      rw [hes, speeches]
      split
      · exact List.getLast?_concat ..
      · rfl
    exact iff_of_true (hspoke.pings hr hlast hout (kept_stdin hkept)) hsay
  · rw [ctmsg_none hread hfit.idle hfit.name.1 hsay]
    exact iff_of_false not_pinged_none hsay

end Answers

/-! ### Packets -/

theorem Streams.boundary {h : List Iter} {w : World} (hinv : Streams h .evtno w) (hrest : w.stdin.rest ≠ []) :
    AtBoundary w.z.session := by
  have hct : Mcctyp.evtno ≠ .invalid := by decide
  have htype : w.z.session.r.type = .evtno := (hinv.serves.sync hct).resolve_right fun h => hrest h.2.1
  have howns := (hinv.serves.keeps hct).owns
  refine ⟨?_, htype, hinv.known hct (by rw [htype]; decide)⟩
  rw [htype] at howns
  cases he : w.z.session.r.evt <;> rw [he] at howns <;> first | rfl | exact howns.elim

theorem Fetched.fit {w w' : World} {rest : List UInt8} {s : Mcx} (h : Fetched w rest s w') (hfit : Fit w)
    (hs : s.w = w.z.session.w) : Fit w' := by
  rw [h]
  exact ⟨⟨hs ▸ hfit.idle.1, hs ▸ hfit.idle.2⟩, hfit.level, hfit.name⟩

section Packets
variable {w w₁ w₂ : World} {p : CPacket} {rest : List UInt8} {ct : Mcctyp} {f : World → Int → Option (Mcctyp × World)}
  {qty : Int} {dst : Bool} {v : Option Val} {pv : Int}

/-- A packet is read in one way: whether its answer ends with a ping is told by the iteration that reads its last field. -/
theorem framed_iff (hgoes : Goes (.evtno, w) (p.parts.length - 1) (ct, w₁)) (hct : ct ≠ .invalid)
    (hout : w₂.stdout = w₁.stdout) (hrest : w₂.stdin.rest = rest) : Framed w p rest ↔ Pinged w₂ (cloop w₁ ct) := by
  rw [← hrest]
  constructor
  · rintro ⟨ct', w₁', w', hgoes', -, hrun, hw', hlast⟩
    obtain ⟨rfl, rfl⟩ := Prod.mk.inj (hgoes.det hgoes')
    exact ⟨w', hrun, hw', hout ▸ hlast⟩
  · rintro ⟨w', hrun, hw', hlast⟩
    exact ⟨ct, w₁, w', hgoes, hct, hrun, hw', hout ▸ hlast⟩

theorem Delivered.framed_iff {C : Prop} (h : Delivered .evtno w (p.parts.length - 1) rest ct f qty dst v pv w₁ w₂)
    (hct : ct ≠ .invalid) (hfit : Fit w)
    (hpinged : ∀ {w₀}, w₀.mcsread qty dst = some (.evtno, w₂, v) → Fit w₂ → (Pinged w₂ (f w₀ qty) ↔ C)) :
    Framed w p rest ↔ C := by
  obtain ⟨w₀, hcloop, hread⟩ := h.call
  obtain ⟨s, hfetched, -, hw, -⟩ := h.fetched
  rw [ClassicX.framed_iff h.goes hct (hfetched.stdout.trans h.silent.symm) hfetched.input, hcloop]
  exact hpinged hread (hfetched.fit hfit hw)

theorem greeting_framed_iff {v : Int} {name : Str} (hp : p.Greets v name) (hb : AtBoundary w.z.session) (hfit : Fit w)
    (hrest : w.stdin.rest = p.bytes ++ rest) : Framed w p rest ↔ 3 ≤ v ∨ trimmed name.val ≤ 20 := by
  obtain ⟨w₁, w₀, w₂, hgoes, hsilent, -, hcloop, hread, hholds, hfetched⟩ := goes_name hp hb hrest
  have hfit₂ := hfetched.fit hfit rfl
  by_cases h₃ : 3 > v
  · obtain ⟨hparts, hsecret⟩ := hp.ends h₃
    rw [named_old h₃] at hread
    have hinput := hfetched.input
    rw [hsecret, List.nil_append] at hinput
    rw [framed_iff (hparts.symm ▸ hgoes) (by decide) (hfetched.stdout.trans hsilent.symm) hinput, hcloop,
      ctname_pinged hread hfit₂, long_trimmed hholds]
    omega
  · refine iff_of_true ?_ (Or.inl (not_lt.mp h₃))
    rw [named_new h₃] at hread
    obtain ⟨w₃, hr, hfit₃, henam, hkept⟩ := ctname_goes_on hread (by decide) hfit₂
    have hcurpv : w₃.z.session.curpv = v := (kept_curpv hkept).trans (congrArg Mcx.curpv hfetched.session)
    have hnamed : w₃.z.session.r = named v := (kept_reader hkept).trans (congrArg Mcx.r hfetched.session)
    have hinput : w₃.stdin.rest = p.secret ++ rest := (congrArg Stdin.rest (kept_stdin hkept)).trans hfetched.input
    obtain ⟨k, ct, w₄, w₅, hlen, hgoes', hct, hsilent', -, hcloop', s, hfetched', -, hw, -⟩ :=
      goes_secret hp h₃ hcurpv hnamed hinput
    have hall : Goes (.evtno, w) (p.parts.length - 1) (ct, w₄) := by
      rw [hlen]
      exact (hgoes.next (by decide) (hcloop.trans hr)).trans hgoes'
    rw [framed_iff hall hct (hfetched'.stdout.trans hsilent'.symm) hfetched'.input, hcloop']
    exact respond_pinged (hfetched'.fit hfit₃ hw) (hfetched'.cent ▸ henam)

end Packets

/-- The answer to a packet of any run ends with a ping exactly if the names are such that it does. -/
theorem framed_iff_pings {ldefault : Ptr} {ldsize : Int16} {lddim : Mcvec} {stdin : List UInt8} {h : List Iter} {w : World}
    {p : CPacket} {rest : List UInt8} (hrun : Starts ldefault ldsize lddim stdin h (.evtno, w))
    (hrest : w.stdin.rest = p.bytes ++ rest) : Framed w p rest ↔ Pings w p := by
  have hinv : Streams h .evtno w := starts_streams hrun
  have hfit := hinv.serves.fit
  have hb : AtBoundary w.z.session := hinv.boundary fun hnil => by
    rw [hrest, List.append_eq_nil_iff] at hnil
    cases p <;> simp [CPacket.bytes, CPacket.parts, numberPart] at hnil
  cases p with
  | greeting0 name printable => exact (greeting_framed_iff (.old printable) hb hfit hrest).trans (or_iff_right (by decide))
  | greeting v known name pass flags => exact greeting_framed_iff (.new known) hb hfit hrest
  | blkedit upd =>
    obtain ⟨w₁, w₂, hdelivered⟩ := blkedit_delivered hb hrest
    refine hdelivered.framed_iff (by decide) hfit fun hread hfit₂ => ?_
    rw [ctblkch_pinged hread hfit₂, hdelivered.cent]
    rfl
  | plyrstat eno epos head =>
    obtain ⟨w₁, w₂, hdelivered⟩ := plyrstat_delivered hb hrest
    obtain ⟨s, hfetched, -⟩ := hdelivered.fetched
    refine hdelivered.framed_iff (by decide) hfit fun hread hfit₂ => ?_
    rw [ctactrstat_pinged hread hfit₂, hfetched]
    rfl
  | chatmsg eno msg =>
    obtain ⟨w₁, w₂, hdelivered, hholds⟩ := chatmsg_delivered hb hrest
    refine hdelivered.framed_iff (by decide) hfit fun hread hfit₂ => ?_
    have hmsg := msg.property
    have hbyte : ∀ i : ℕ, i < 64 → w₂.inbuf i = msg.val.getD i 0 := by
      intro i hi
      rw [hholds i (by omega), List.getD_eq_getElem?_getD, List.getElem?_eq_getElem (by omega), Option.getD_some]
    have h0 : w₂.inbuf 0 = msg.val.getD 0 0 := hbyte 0 (by decide)
    have h1 : w₂.inbuf 1 = msg.val.getD 1 0 := hbyte 1 (by decide)
    rw [ctmsg_pinged hread hfit₂ (by decide), World.Sayable, hdelivered.cent, h0, h1]
    rfl

/-- A name of 20 characters, which is not too long. -/
theorem framed_iff_pings_greeting : ∃ (p : CPacket) (h : List Iter) (w : World),
    Starts (fun _ => 0) 0 {} p.bytes h (.evtno, w) ∧ w.stdin.rest = p.bytes ++ [] ∧ (Framed w p [] ↔ Pings w p) ∧ Pings w p := by
  have hshort : trimmed (List.replicate 20 65 ++ List.replicate 44 0x20) ≤ 20 := by decide +kernel
  exact ⟨.greeting0 ⟨List.replicate 20 65 ++ List.replicate 44 0x20, rfl⟩ (by decide), _, _, .start, (List.append_nil _).symm,
    framed_iff_pings .start (List.append_nil _).symm, hshort⟩

/-- A name of 21 characters is answered with a Goodbye, and no ping. -/
theorem goodbye_unframed : ∃ (p : CPacket) (h : List Iter) (w : World), Starts (fun _ => 0) 0 {} p.bytes h (.evtno, w) ∧
    w.stdin.rest = p.bytes ++ [] ∧ ¬Framed w p [] := by
  have hlong : ¬(3 ≤ (0 : Int) ∨ trimmed (List.replicate 21 65 ++ List.replicate 43 0x20) ≤ 20) := by decide +kernel
  refine ⟨.greeting0 ⟨List.replicate 21 65 ++ List.replicate 43 0x20, rfl⟩ (by decide), _, _, .start,
    (List.append_nil _).symm, fun h => hlong ?_⟩
  exact (greeting_framed_iff (.old _) ⟨rfl, rfl, by decide⟩ (csetup_serves _ _ _ _).fit (List.append_nil _).symm).mp h

end ClassicX
