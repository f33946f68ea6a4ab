import ClassicX.Server.Start

/-! The handlers look neither at what was given away before nor at what is still to be read. -/

namespace ClassicX

/-- The state, after the calls of `output` that `before` was given to, and with `s` still to be read. -/
def World.after (before : List (List UInt8)) (s : Stdin) (w : World) : World :=
  { w with stdin := s, outputs := before ++ w.outputs }

theorem bind_moved {α β : Type} {g : α → α} {h : β → β} {a : Option α} {k : α → Option β} (hk : ∀ x, k (g x) = (k x).map h) :
    (a.map g).bind k = (a.bind k).map h := by
  cases a with
  | none => rfl
  | some x => exact hk x

/-! ### Senders -/

section Senders
variable {before : List (List UInt8)} {s : Stdin} {w : World}

/-- A result of a sender or of a handler, in such a state. -/
def afterResult {α : Type} (before : List (List UInt8)) (s : Stdin) : α × World → α × World := Prod.map id (World.after before s)

theorem after_mcsread (qty : Int) (dst : Bool) :
    (w.after before s).mcsread qty dst = (w.mcsread qty dst).map fun x => (x.1, x.2.1.after before s, x.2.2) := by
  simp only [World.mcsread, Option.bind_eq_bind, Option.map_bind]
  rfl

theorem after_mcswr (o : Out) (src : Src) :
    (w.after before s).mcswr o src = (w.mcswr o src).map fun x => (x.1, x.2.1.after before s, x.2.2) := by
  simp only [World.mcswr, Option.bind_eq_bind, Option.map_bind, Function.comp_def]
  rfl

theorem after_output (o : Out) : (w.after before s).output o = (w.output o).map (World.after before s) := by
  simp only [World.output]
  split
  · rw [World.after, List.append_assoc]
    rfl
  · rfl

theorem after_empty (o : Out) : (w.after before s).empty o = (w.empty o).map fun x => (x.1.after before s, x.2) := by
  simp only [World.empty, after_output, Option.bind_eq_bind]
  exact bind_moved fun _ => rfl

theorem after_result (o : Out) (qty : Int) :
    (w.after before s).result o qty = (w.result o qty).map fun x => (x.1, x.2.1.after before s, x.2.2) := by
  simp only [World.result, after_empty, Option.bind_eq_bind]
  split
  · exact bind_moved fun _ => rfl
  · split <;> rfl

theorem after_full (eager : Bool) (o : Out) :
    (w.after before s).full eager o = (w.full eager o).map fun x => (x.1.after before s, x.2) := by
  simp only [World.full, after_empty]
  split <;> rfl

theorem after_sendLoop (eager : Bool) (k : ℕ) (o : Out) (src : Src) :
    sendLoop eager k (w.after before s) o src = (sendLoop eager k w o src).map fun x => (x.1.after before s, x.2) := by
  induction k generalizing w o src with
  | zero => rfl
  | succ k ih =>
    simp only [sendLoop, after_mcswr, Option.bind_eq_bind]
    refine bind_moved ?_
    rintro ⟨qty, w, o, src⟩
    simp only [after_result]
    refine bind_moved ?_
    rintro ⟨qty, w, o⟩
    simp only [after_full]
    refine bind_moved ?_
    rintro ⟨w, o⟩
    simp only [ih]
    split <;> rfl

theorem after_sendRest (eager : Bool) (qty : Int) (o : Out) (src : Src) :
    sendRest eager qty (w.after before s) o src = (sendRest eager qty w o src).map (afterResult before s) := by
  simp only [sendRest, after_sendLoop, Option.bind_eq_bind]
  split
  · refine bind_moved ?_
    rintro ⟨w, o⟩
    simp only [after_output]
    exact bind_moved fun _ => rfl
  · rfl

theorem after_segeneric (sevt : Mcsevt) (param : Src) :
    segeneric (w.after before s) sevt param = (segeneric w sevt param).map (afterResult before s) := by
  simp only [segeneric, after_mcswr, Option.bind_eq_bind]
  exact bind_moved fun _ => after_sendRest _ _ _ _

theorem after_send (se : Mcsevt) (src : Src) : send (w.after before s) se src = (send w se src).map (afterResult before s) := by
  simp only [send, after_mcswr, Option.bind_eq_bind]
  exact bind_moved fun _ => after_sendRest _ _ _ _

theorem after_seping : seping (w.after before s) = (seping w).map (afterResult before s) := after_segeneric _ _

theorem after_sechatmsg (eid : Int8) (msg : Ptr) :
    sechatmsg (w.after before s) eid msg = (sechatmsg w eid msg).map (afterResult before s) := after_send _ _

theorem after_sebye (msg : Ptr) : sebye (w.after before s) msg = (sebye w msg).map (afterResult before s) :=
  after_send (w := w.withFlg 0) _ _

theorem after_segreeting : segreeting (w.after before s) = (segreeting w).map (afterResult before s) := after_send _ _

theorem after_senewactr (e : Mcent) : senewactr (w.after before s) e = (senewactr w e).map (afterResult before s) := after_send _ _

theorem after_loop (k : ℕ) (i ret : Int) :
    initseq.loop k (w.after before s) i ret = (initseq.loop k w i ret).map (afterResult before s) := by
  induction k generalizing w i ret with
  | zero => rfl
  | succ k ih =>
    have hz : (w.after before s).z = w.z := rfl
    simp only [initseq.loop, hz, selvldata, after_send, Option.bind_eq_bind]
    split
    · exact bind_moved fun _ => ih _ _
    · rfl

theorem after_initseq [P : Platform] : initseq (w.after before s) = (initseq w).map (afterResult before s) := by
  have hz : (w.after before s).withFlg 1 = (w.withFlg 1).after before s := rfl
  have hcent : ((w.withFlg 1).after before s).z.cent = (w.withFlg 1).z.cent := rfl
  simp only [initseq, hz, hcent, after_segreeting, Option.bind_eq_bind]
  generalize w.withFlg 1 = w
  cases Platform.warn w.z.cent.enam with
  | none => rfl
  | some _ =>
    refine bind_moved ?_
    rintro ⟨r, w⟩
    have hctr : (w.after before s).withCtr 0 = (w.withCtr 0).after before s := rfl
    simp only [afterResult, Prod.map_apply, id_eq, hctr, senewlvl, after_segeneric]
    refine bind_moved ?_
    rintro ⟨r, w⟩
    have hz : (w.after before s).z = w.z := rfl
    simp only [afterResult, Prod.map_apply, id_eq, hz, after_loop]
    refine bind_moved ?_
    rintro ⟨r, w⟩
    have hz : (w.after before s).z = w.z := rfl
    simp only [afterResult, Prod.map_apply, id_eq, hz, selvlsize, after_segeneric]
    refine bind_moved ?_
    rintro ⟨r, w⟩
    simp only [afterResult, Prod.map_apply, id_eq, after_senewactr]
    refine bind_moved ?_
    rintro ⟨r, w⟩
    simp only [afterResult, Prod.map_apply, id_eq, after_senewactr]
    refine bind_moved ?_
    rintro ⟨r, w⟩
    simp only [afterResult, Prod.map_apply, id_eq, after_seping]
    exact bind_moved fun _ => rfl

end Senders

/-! ### Handlers -/

section Handlers
variable {before : List (List UInt8)} {s : Stdin} {w : World}

theorem after_mirror (d : Mcediff) (old new : Mceup) :
    ctactrstat.mirror (w.after before s) d old new = (ctactrstat.mirror w d old new).map (afterResult before s) := by
  cases d with
  | eq => rfl
  | _ => exact after_segeneric _ _

theorem after_moved (old new : Mceup) :
    ctactrstat.moved (w.after before s) old new = (ctactrstat.moved w old new).map (World.after before s) := by
  have hcent : ∀ c : Mcent, (w.after before s).withCent c = (w.withCent c).after before s := fun _ => rfl
  have hz : (w.after before s).z = w.z := rfl
  simp only [ctactrstat.moved, hz, hcent, after_mirror, Option.bind_eq_bind]
  split
  · rfl
  · exact bind_moved fun _ => rfl

theorem after_respawn (nxt : Mcctyp) :
    ctactrstat.respawn (w.after before s) nxt = (ctactrstat.respawn w nxt).map (afterResult before s) := by
  have hctr : (w.after before s).ctr = w.ctr := rfl
  have hcent : ∀ (w : World) (c : Mcent), (w.after before s).withCent c = (w.withCent c).after before s := fun _ _ => rfl
  have hz : ∀ w : World, (w.after before s).z = w.z := fun _ => rfl
  simp only [ctactrstat.respawn, hctr, seactrdied, after_segeneric, Option.bind_eq_bind]
  split
  · rfl
  · refine bind_moved ?_
    rintro ⟨r, w⟩
    simp only [afterResult, Prod.map_apply, id_eq, after_segreeting]
    refine bind_moved ?_
    rintro ⟨r, w⟩
    simp only [afterResult, Prod.map_apply, id_eq, hz, hcent, after_senewactr]
    refine bind_moved ?_
    rintro ⟨r, w⟩
    simp only [afterResult, Prod.map_apply, id_eq, hz, hcent, after_senewactr]
    refine bind_moved ?_
    rintro ⟨r, w⟩
    simp only [afterResult, Prod.map_apply, id_eq, hz, hcent, after_seping]
    exact bind_moved fun _ => rfl

theorem after_help (msgs : List String) : ctmsg.help (w.after before s) msgs = (ctmsg.help w msgs).map (afterResult before s) := by
  induction msgs generalizing w with
  | nil => rfl
  | cons msg msgs ih =>
    simp only [ctmsg.help, after_sechatmsg, Option.bind_eq_bind]
    refine bind_moved ?_
    rintro ⟨r, w⟩
    show (if r ≠ 0 then some (r, w.after before s) else ctmsg.help (w.after before s) msgs) =
      (if r ≠ 0 then some (r, w) else ctmsg.help w msgs).map (afterResult before s)
    rw [ih]
    split <;> rfl

theorem after_command (c : UInt8) : ctmsg.command (w.after before s) c = (ctmsg.command w c).map (afterResult before s) := by
  have hz : ∀ w : World, (w.after before s).z = w.z := fun _ => rfl
  have hinbuf : (w.after before s).inbuf = w.inbuf := rfl
  simp only [ctmsg.command, hz, hinbuf]
  generalize Char.ofNat c.toNat = x
  split
  case h_1 =>
    split
    · simp only [seblkch, after_segeneric, Option.bind_eq_bind]
      exact bind_moved fun _ => rfl
    · exact after_sechatmsg _ _
  case h_2 => exact after_sebye _
  case h_3 =>
    simp only [seactrdied, after_segeneric, Option.bind_eq_bind]
    refine bind_moved ?_
    rintro ⟨r, w⟩
    simp only [afterResult, Prod.map_apply, id_eq, hz, after_senewactr]
  case h_4 => exact after_senewactr _
  case h_10 => exact after_segeneric _ _
  case h_11 => exact after_help _
  all_goals exact after_sechatmsg _ _

variable [P : Platform]

theorem after_respond (nxt : Mcctyp) : respond (w.after before s) nxt = (respond w nxt).map (afterResult before s) := by
  simp only [respond, after_initseq, Option.bind_eq_bind]
  split
  · rfl
  · exact bind_moved fun _ => rfl

theorem after_ctname (qty : Int) : ctname (w.after before s) qty = (ctname w qty).map (afterResult before s) := by
  simp only [ctname, after_mcsread, Option.bind_eq_bind]
  refine bind_moved ?_
  rintro ⟨nxt, w, v⟩
  have hsave : ctname.save (w.after before s) = ((ctname.save w).1, (ctname.save w).2.after before s) := rfl
  simp only [hsave, after_sebye, after_respond]
  split
  · exact bind_moved fun _ => rfl
  · split
    · exact bind_moved fun _ => rfl
    · rfl

theorem after_ctblkch (qty : Int) : ctblkch (w.after before s) qty = (ctblkch w qty).map (afterResult before s) := by
  simp only [ctblkch, after_mcsread, Option.bind_eq_bind]
  refine bind_moved ?_
  rintro ⟨nxt, w, v⟩
  have hz : (w.after before s).z = w.z := rfl
  simp only [hz, seblkch, after_segeneric]
  cases Platform.warn w.z.cent.enam with
  | none => rfl
  | some _ =>
    refine bind_moved ?_
    rintro ⟨r, w⟩
    simp only [afterResult, Prod.map_apply, id_eq, after_seping]
    split
    · rfl
    · exact bind_moved fun _ => rfl

theorem after_joined (old new : Mceup) :
    ctactrstat.joined (w.after before s) old new = (ctactrstat.joined w old new).map (afterResult before s) := by
  simp only [ctactrstat.joined, after_moved, Option.bind_eq_bind]
  refine bind_moved fun w => ?_
  simp only [after_seping]
  refine bind_moved ?_
  rintro ⟨r, w⟩
  simp only [afterResult, Prod.map_apply, id_eq, after_respawn]
  refine bind_moved ?_
  rintro ⟨nxt, w⟩
  have hctr : (w.after before s).ctr = w.ctr := rfl
  simp only [afterResult, Prod.map_apply, id_eq, hctr, after_initseq]
  split
  · exact bind_moved fun _ => rfl
  · rfl

theorem after_ctactrstat (qty : Int) : ctactrstat (w.after before s) qty = (ctactrstat w qty).map (afterResult before s) := by
  have hz : ∀ w : World, (w.after before s).z = w.z := fun _ => rfl
  simp only [ctactrstat, hz, after_mcsread, Option.bind_eq_bind]
  refine bind_moved ?_
  rintro ⟨nxt, w, v⟩
  simp only [hz, after_seping, after_joined]
  split
  · exact bind_moved fun _ => rfl
  · exact bind_moved fun _ => rfl

theorem after_ctmsg (qty : Int) : ctmsg (w.after before s) qty = (ctmsg w qty).map (afterResult before s) := by
  have hz : ∀ w : World, (w.after before s).z = w.z := fun _ => rfl
  have hinbuf : ∀ w : World, (w.after before s).inbuf = w.inbuf := fun _ => rfl
  simp only [ctmsg, after_mcsread, Option.bind_eq_bind]
  refine bind_moved ?_
  rintro ⟨nxt, w, v⟩
  simp only [hz, hinbuf, after_command, after_sechatmsg]
  cases Platform.warn w.z.cent.enam with
  | none => rfl
  | some _ =>
    simp only [Option.bind_some]
    split
    · refine bind_moved ?_
      rintro ⟨r, w⟩
      simp only [afterResult, Prod.map_apply, id_eq, after_seping]
      exact bind_moved fun _ => rfl
    · cases w.z.cent.enam with
      | none => rfl
      | some p =>
        simp only [Option.bind_some]
        cases ctmsg.text p w.z.cent.enln w.inbuf qty with
        | none => rfl
        | some msg =>
          refine bind_moved ?_
          rintro ⟨r, w⟩
          simp only [afterResult, Prod.map_apply, id_eq, after_seping]
          split
          · rfl
          · exact bind_moved fun _ => rfl

theorem after_handler {ct : Mcctyp} {f : World → Int → Option (Mcctyp × World)} (hf : handler ct = some f) (qty : Int) :
    f (w.after before s) qty = (f w qty).map (afterResult before s) := by
  cases ct <;> cases hf
  case evtno =>
    simp only [ctevtno, after_mcsread, Option.bind_eq_bind]
    exact bind_moved fun _ => rfl
  case version =>
    simp only [ctversion, after_mcsread, Option.bind_eq_bind]
    exact bind_moved fun _ => rfl
  case name => exact after_ctname qty
  case blkch => exact after_ctblkch qty
  case actrno =>
    simp only [ctactrno, after_mcsread, Option.bind_eq_bind]
    exact bind_moved fun _ => rfl
  case actrstat => exact after_ctactrstat qty
  case msg => exact after_ctmsg qty
  case pass =>
    simp only [ctpass, after_mcsread, Option.bind_eq_bind]
    exact bind_moved fun _ => after_respond _
  case cflgs =>
    simp only [ctcflg, after_mcsread, Option.bind_eq_bind]
    exact bind_moved fun _ => after_respond _

/-- A handler only adds to what was given away, and reads nothing. -/
theorem handler_grows {ct : Mcctyp} {f : World → Int → Option (Mcctyp × World)} (hf : handler ct = some f) {qty : Int}
    {r : Mcctyp × World} (hr : f w qty = some r) : (∃ outs, r.2.outputs = w.outputs ++ outs) ∧ r.2.stdin = w.stdin := by
  have hw : World.after w.outputs w.stdin { w with outputs := [] } = w := by
    rw [World.after, List.append_nil]
  have hmoved : f (World.after w.outputs w.stdin { w with outputs := [] }) qty =
      (f { w with outputs := [] } qty).map (afterResult w.outputs w.stdin) := after_handler hf qty
  rw [hw, hr] at hmoved
  obtain ⟨r', -, rfl⟩ := Option.map_eq_some_iff.mp hmoved.symm
  exact ⟨⟨r'.2.outputs, rfl⟩, rfl⟩

end Handlers

/-! ### The loop -/

section Loop
variable {w : World} {ct : Mcctyp}

theorem read_outputs : (cloop.read w ct).2.outputs = w.outputs := by
  rw [cloop.read]
  dsimp only
  split <;> rfl

theorem read_stdin : (cloop.read w ct).2.stdin = (input w.stdin (mcctlen w.z.session ct)).2.2 := by
  rw [cloop.read]
  dsimp only
  split <;> rfl

/-- An iteration only adds to what was given away, and what is still to be read is what `input` left. -/
theorem cloop_grows [P : Platform] {r : Mcctyp × World} (hr : cloop w ct = some r) :
    (∃ outs, r.2.outputs = w.outputs ++ outs) ∧ r.2.stdin = (input w.stdin (mcctlen w.z.session ct)).2.2 := by
  have houtputs : (cloop.read w ct).2.outputs = w.outputs := read_outputs
  rw [← houtputs, ← read_stdin]
  rw [cloop] at hr
  by_cases hneg : 0 > (cloop.read w ct).1
  · cases (if_pos hneg).symm.trans hr
    exact ⟨⟨[], (List.append_nil _).symm⟩, rfl⟩
  · obtain ⟨f, hf, hr⟩ := Option.bind_eq_some_iff.mp ((if_neg hneg).symm.trans hr)
    exact handler_grows hf hr

end Loop

end ClassicX
