import ClassicX.Theorems.Sending

/-! Every sender gives away the packet of its event, and leaves the writer idle. -/

namespace ClassicX

theorem slen_nonneg (src : Ptr) : 0 ≤ slen src := Int.natCast_nonneg _

theorem selvldata_gives {w : World} {dlen : Int} (src : Ptr) (pcnt : Int8) (hidle : w.z.session.Idle) (h : 0 ≤ dlen) :
    Gives w (selvldata w dlen src pcnt) (packet w.z.session.curpv .ldata (.cho ⟨some src, dlen, dlen, pcnt⟩)) :=
  send_gives hidle trivial trivial fun _ => h

theorem senewactr_gives {w : World} {e : Mcent} (hidle : w.z.session.Idle) (h : e.enam.isSome → 0 ≤ e.enln) :
    Gives w (senewactr w e) (packet w.z.session.curpv .enew (.eno (senewactr.ent e))) := by
  refine send_gives hidle trivial trivial ?_
  unfold senewactr.ent
  split <;> exact h

theorem sechatmsg_gives {w : World} (eid : Int8) (msg : Ptr) (hidle : w.z.session.Idle) :
    Gives w (sechatmsg w eid msg) (packet w.z.session.curpv .cmsg (.mso ⟨some msg, slen msg, eid⟩)) :=
  send_gives hidle trivial trivial fun _ => slen_nonneg msg

theorem sebye_gives {w : World} (msg : Ptr) (hidle : w.z.session.Idle) :
    Gives (w.withFlg 0) (sebye w msg) (packet w.z.session.curpv .pbye (.mso ⟨some msg, slen msg, 0⟩)) :=
  send_gives (w := w.withFlg 0) hidle trivial trivial fun _ => slen_nonneg msg

theorem segreeting_gives {w : World} (hidle : w.z.session.Idle) :
    Gives w (segreeting w) (packet w.z.session.curpv .pgreeting (.gto (segreeting.grt w.z.session.curpv))) :=
  send_gives hidle trivial trivial ⟨fun _ => slen_nonneg _, fun _ => slen_nonneg _⟩

/-! ### A name of length -1 -/

/-- A spawn with a name of length -1 does not stay inside of its buffer: as a `u16` the length is 65535. -/
theorem seenw_strays {s : Mcx} {e : Mcent} {p : Ptr} {o : Swr} (hw : s.w = ⟨MCSTRLEN, .enew, 1⟩) (hp : e.enam = some p)
    (hlen : e.enln = -1) (h : seenw s 15 e = some o) : ∃ b, (20, b) ∈ o.stores := by
  obtain ⟨cv, ps, fl, r, w⟩ := s
  obtain ⟨u, enln, enam⟩ := e
  subst hw hp hlen
  simp only [seenw, fieldLoop, Option.bind_eq_bind, Option.bind_eq_some_iff, Option.some.injEq] at h
  obtain ⟨d, hd, rfl⟩ := h
  have hone : (1 : Int) ≠ 0 ∧ (15 : Int) - 1 ≠ 0 := by decide
  rw [Turns.doWhile_more (t := ⟨(⟨cv, ps, fl, r, ⟨MCSTRLEN, .enew, 2⟩⟩, ⟨u, -1, some p⟩), 15, 1, writeb u.eno⟩) rfl
    hone.1 hone.2 rfl, Option.map_eq_some_iff] at hd
  obtain ⟨d', hd', rfl⟩ := hd
  have hbytes : (enw2 ⟨cv, ps, fl, r, ⟨MCSTRLEN, .enew, 2⟩⟩ (15 - 1) ⟨u, -1, some p⟩).bytes = mcopy_ p (-1) := by
    simp [enw2, swti0, stringw, tixz, writes, writez, Fields.clip, MCSTRLEN, Fw.turn]
  have hsub := Turns.doWhile_stores (t := enw2 _ _ _) rfl hd'
  rw [hbytes] at hsub
  obtain ⟨b, hb⟩ := Turns.exists_mem_storesAt (0 + 1) (mcopy_ p (-1)) (i := 19) (by simp [mcopy_])
  exact ⟨b, List.mem_append_right _ (hsub hb)⟩

/-- The name of a spawn has no length of -1. -/
theorem senewactr_none {w : World} {e : Mcent} (hidle : w.z.session.Idle) (hp : e.enam.isSome) (hlen : e.enln = -1) :
    senewactr w e = none := by
  obtain ⟨p, hp⟩ := Option.isSome_iff_exists.mp hp
  have hlow : (senewactr.ent e).enam = some p ∧ (senewactr.ent e).enln = -1 := by
    rw [senewactr.ent]
    split <;> exact ⟨hp, hlen⟩
  have hw : (w.started .enew).z.session.w = ⟨MCSTRLEN, .enew, 1⟩ := started_w w .enew
  have hcall : ∀ buf : Ptr, (w.started .enew).mcswr ⟨buf, 0 + 1, OUTBUFLEN - 1⟩ (.eno (senewactr.ent e)) = none := by
    intro buf
    rw [World.mcswr]
    cases hr : ClassicX.mcswr (w.started .enew).z.session (OUTBUFLEN - 1) (.eno (senewactr.ent e)) with
    | none => rfl
    | some r =>
      simp only [ClassicX.mcswr, hw, sewr, Option.bind_eq_bind, Option.bind_eq_some_iff, Option.some.injEq] at hr
      obtain ⟨o, ho, rfl⟩ := hr
      obtain ⟨b, hb⟩ := seenw_strays hw hlow.1 hlow.2 ho
      have hpoke : poke OUTBUFLEN buf (o.stores.map fun st => (0 + 1 + st.1, st.2)) = none :=
        poke_none (List.mem_map_of_mem hb) (by simp [OUTBUFLEN])
      simp only [Option.bind_eq_bind, Option.bind_some, hpoke, Option.bind_none]
  have hone : (0 : Int) < 1 := by decide
  simp only [senewactr, send, mcswr_first hidle (show seencode .enew ≠ .invalid by decide), Option.bind_eq_bind,
    Option.bind_some, sendRest, if_pos hone, sendLoop_none (hcall _), Option.bind_none]

/-! ### What the senders give away -/

/-- What the senders give away: the payload of an event in one buffer, level data, a spawn, which is lower
    for a negative number, a message, and a goodbye. -/
theorem senders_give (w : World) (hidle : w.z.session.Idle) :
    (∀ e param, Generic e param → Gives w (segeneric w e param) (packet w.z.session.curpv e param)) ∧
    (∀ dlen src pcnt, 0 ≤ dlen → dlen ≤ 1024 → ∃ bs, Gives w (selvldata w dlen src pcnt) bs ∧
      bs = packet w.z.session.curpv .ldata (.cho ⟨some src, dlen, dlen, pcnt⟩) ∧ bs.length = 1028) ∧
    (∀ e e' : Mcent, e.enam = none ∨ 0 ≤ e.enln ∧ e.enln ≤ 127 →
      e' = (if e.eno < 0 then { e with epos := { e.epos with y := e.epos.y - 20 } } else e) →
      ∃ bs, Gives w (senewactr w e) bs ∧ bs = packet w.z.session.curpv .enew (.eno e') ∧ bs.length = 74) ∧
    (∀ eid msg, ∃ bs, Gives w (sechatmsg w eid msg) bs ∧
      bs = packet w.z.session.curpv .cmsg (.mso ⟨some msg, slen msg, eid⟩) ∧ bs.length = 66) ∧
    (∀ msg, ∃ bs, Gives (w.withFlg 0) (sebye w msg) bs ∧
      bs = packet w.z.session.curpv .pbye (.mso ⟨some msg, slen msg, 0⟩) ∧ bs.length = 65) := by
  refine ⟨fun e param h => segeneric_gives e param hidle h, fun dlen src pcnt h _ => ?_, fun e e' h he' => ?_,
    fun eid msg => ?_, fun msg => ?_⟩
  · refine ⟨_, selvldata_gives src pcnt hidle h, rfl, ?_⟩
    rw [packet_eq (by simp)]
    simp [encode, layout]
  · have hused : e.enam.isSome → 0 ≤ e.enln := by
      intro hsome
      rcases h with h | h
      · rw [h] at hsome
        cases hsome
      · exact h.1
    refine ⟨_, senewactr_gives hidle hused, by rw [he']; rfl, ?_⟩
    rw [packet_eq (by simp)]
    simp [encode, layout]
  · refine ⟨_, sechatmsg_gives eid msg hidle, rfl, ?_⟩
    rw [packet_eq (by simp)]
    simp [encode, layout]
  · refine ⟨_, sebye_gives msg hidle, rfl, ?_⟩
    rw [packet_eq (by simp)]
    simp [encode, layout]

/-- The spawn of a player with an empty name. -/
theorem senders_give_spawn : ∃ w : World, ∃ bs, Gives w (senewactr w { eno := -1, enam := some fun _ => 0 }) bs ∧
    bs = packet 7 .enew (.eno { eno := -1, epos := ⟨0, -20, 0⟩, enam := some fun _ => 0 }) ∧ bs.length = 74 :=
  ⟨{ z := { session := fresh 7, lcur := ⟨fun _ => 0, 0, {}⟩ }, stdin := ⟨[], false⟩ },
    (senders_give _ ⟨rfl, rfl⟩).2.2.1 _ _ (Or.inr (by decide)) rfl⟩

end ClassicX
