import ClassicX.Theorems.Said

/-! The events that a version knows. Nothing keeps the server from an event above the maximum: a message and a death go
out at version 0, and a goodbye at versions 0 and 1. -/

namespace ClassicX
open Runs (Run Always)

def Allowed (v : Int) (e : Mcsevt) : Prop := ∃ m ∈ mcsemax[v.toNat]?, e.code ≤ m.code

section Events
variable {v : Int}

theorem allowed_old {e : Mcsevt} (hv : Known v) (he : e.code ≤ Mcsevt.ehead.code) : Allowed v e := by
  obtain ⟨hlo, hhi⟩ := hv
  rw [MCPVMAX] at hhi
  rw [Mcsevt.code] at he
  interval_cases v <;> exact ⟨_, rfl, he.trans (by decide)⟩

theorem allowed_edied (hv : Known v) : Allowed v .edied ↔ v ≠ 0 := by
  obtain ⟨hlo, hhi⟩ := hv
  rw [MCPVMAX] at hhi
  interval_cases v <;> simp [Allowed, mcsemax, Mcsevt.code]

theorem allowed_cmsg (hv : Known v) : Allowed v .cmsg ↔ v ≠ 0 := by
  obtain ⟨hlo, hhi⟩ := hv
  rw [MCPVMAX] at hhi
  interval_cases v <;> simp [Allowed, mcsemax, Mcsevt.code]

theorem allowed_pbye (hv : Known v) : Allowed v .pbye ↔ v ≠ 0 ∧ v ≠ 1 := by
  obtain ⟨hlo, hhi⟩ := hv
  rw [MCPVMAX] at hhi
  interval_cases v <;> simp [Allowed, mcsemax, Mcsevt.code]

theorem packetEvent_packet {e : Mcsevt} {src : Src} (hcasts : e.Casts src) (hdiff : e = .ediff → 0 ≠ v) :
    ∀ n ∈ (packet v e src).head?, packetEvent v n = e := by
  intro n hn
  rw [head_packet] at hn
  obtain rfl := Option.some.inj hn
  by_cases hdied : .edied = e ∧ 0 = v
  · obtain ⟨rfl, rfl⟩ := hdied
    rfl
  · rw [if_neg hdied]
    cases e <;> first | rfl | (cases src <;> exact hcasts.elim) | exact if_neg (hdiff rfl)

end Events

/-- All packets of the iteration are of events that the version knows, if the version is known. -/
def Iter.Gated (t : Iter) : Prop :=
  Known t.w'.z.session.curpv → t.Outputs fun ps => ∀ p ∈ ps, ∀ n ∈ p.head?,
    Allowed t.w'.z.session.curpv (packetEvent t.w'.z.session.curpv n)

/-- A message that is answered without a message, a goodbye or a death: `/s`, `/y`, or `/p` with its digits. -/
def Plays (w : World) : Prop :=
  w.inbuf 0 = 0x2F ∧ (w.inbuf 1 = 0x73 ∨ w.inbuf 1 = 0x79 ∨
    w.inbuf 1 = 0x70 ∧ 10 * (0xF &&& w.inbuf 2) ≠ 0 ∧ 0xF &&& w.inbuf 3 ≠ 0)

/-- The handler is called with a name that is too long at version 0 or 1, with the state of a player at version 0 who is
    respawned, with a message at version 0 that is not answered by the game alone, or with the command `/q` at version 1. -/
def Above (w : World) (ct : Mcctyp) : Prop :=
  ct = .name ∧ (w.z.session.curpv = 0 ∨ w.z.session.curpv = 1) ∧ Long w.inbuf ∨
    ct = .actrstat ∧ w.z.session.curpv = 0 ∧ w.z.flg ≠ 0 ∧ w.ctr = 512 ∨
    ct = .msg ∧ (w.z.session.curpv = 0 ∧ ¬Plays w ∨ w.z.session.curpv = 1 ∧ w.inbuf 0 = 0x2F ∧ w.inbuf 1 = 0x71)

/-- The handler of the iteration is called so. -/
def Iter.Oversteps (t : Iter) : Prop := 0 ≤ t.qty ∧ Above t.rd t.ct

/-! ### Kinds of events -/

section Kinds
variable {v : Int} {es : List Sent}

theorem joins_old (v : Int) (l : Lvl) : ∀ e ∈ joins v l, e.1.code ≤ Mcsevt.ehead.code := by
  intro e he
  simp only [joins, List.mem_append, List.mem_cons, List.not_mem_nil, or_false, List.mem_map] at he
  rcases he with ((rfl | rfl) | ⟨j, -, rfl⟩) | rfl | rfl | rfl | rfl <;> simp [Mcsevt.code, ping]

theorem moves_old (v : Int) (old new : Mceup) : ∀ e ∈ moves v old new, e.1.code ≤ Mcsevt.ehead.code := by
  intro e he
  rw [moves] at he
  split at he
  · cases he
  · generalize (if 0 = v then Mcediff.big else mcescmp old new) = d at he
    cases d <;> simp only [mirrors, List.mem_singleton, List.not_mem_nil] at he
    all_goals
      subst he
      simp [Mcsevt.code]

/-- What a player who takes part is sent: only the death of an entity is not as old as version 0. -/
theorem plays_allowed {w : World} (old new : Mceup) (hv : Known w.z.session.curpv) :
    (∀ e ∈ plays w old new, Allowed w.z.session.curpv e.1) ↔ ¬(w.z.session.curpv = 0 ∧ w.ctr = 512) := by
  have hold : ∀ {e : Mcsevt}, e.code ≤ Mcsevt.ehead.code → Allowed w.z.session.curpv e := allowed_old hv
  have hping : Allowed w.z.session.curpv ping.1 := hold (by decide)
  constructor
  · rintro hall ⟨hzero, hctr⟩
    have hdied := hall (.edied, .eid 0) (by simp [plays, hctr, respawns])
    exact (allowed_edied hv).mp hdied hzero
  · intro hno e he
    simp only [plays, List.mem_append, List.mem_singleton] at he
    rcases he with ((he | rfl) | he) | he
    · exact hold (moves_old _ _ _ e he)
    · exact hping
    · split at he
      · rename_i hctr
        simp only [respawns, List.mem_cons, List.not_mem_nil, or_false] at he
        rcases he with rfl | rfl | rfl | rfl | rfl
        · exact (allowed_edied hv).mpr fun hzero => hno ⟨hzero, hctr⟩
        · exact hold (by simp [Mcsevt.code])
        · exact hold (by simp [Mcsevt.code])
        · exact hold (by simp [Mcsevt.code])
        · exact hping
      · cases he
    · split at he
      · exact hold (joins_old _ _ e he)
      · cases he

theorem commands_allowed {w : World} {c : UInt8} (hv : Known v) : (∀ k ∈ commands w c, Allowed v k) ↔
    ¬(v = 0 ∧ ¬(c = 0x73 ∨ c = 0x79 ∨ c = 0x70 ∧ 10 * (0xF &&& w.inbuf 2) ≠ 0 ∧ 0xF &&& w.inbuf 3 ≠ 0) ∨
      v = 1 ∧ c = 0x71) := by
  have hp : c = 0x70 ↔ Char.ofNat c.toNat = 'p' := ofNat_eq_iff.symm
  have hq : c = 0x71 ↔ Char.ofNat c.toNat = 'q' := ofNat_eq_iff.symm
  have hs : c = 0x73 ↔ Char.ofNat c.toNat = 's' := ofNat_eq_iff.symm
  have hy : c = 0x79 ↔ Char.ofNat c.toNat = 'y' := ofNat_eq_iff.symm
  have hcmsg := allowed_cmsg hv
  have hpbye := allowed_pbye hv
  have hedied := allowed_edied hv
  have hbupdate : Allowed v .bupdate := allowed_old hv (by decide)
  have henew : Allowed v .enew := allowed_old hv (by decide)
  have hestate : Allowed v .estate := allowed_old hv (by decide)
  rw [hp, hq, hs, hy, commands]
  generalize Char.ofNat c.toNat = x
  split
  case h_1 =>
    split
    · rename_i hdigits
      simp [hbupdate, hdigits.1, hdigits.2]
    · rename_i hdigits
      simp [hcmsg, hdigits]
  case h_11 => simp_all
  all_goals simp [hcmsg, hpbye, hedied, henew, hestate]

theorem speeches_allowed {w : World} (hv : Known v) :
    (∀ k ∈ speeches w, Allowed v k) ↔ ¬(v = 0 ∧ ¬Plays w ∨ v = 1 ∧ w.inbuf 0 = 0x2F ∧ w.inbuf 1 = 0x71) := by
  have hping : Allowed v .ping := allowed_old hv (by decide)
  rw [speeches, Plays]
  by_cases hslash : w.inbuf 0 = 0x2F
  · rw [if_pos hslash, List.forall_mem_append, commands_allowed hv]
    simp [hslash, hping]
  · rw [if_neg hslash]
    simp [hslash, hping, allowed_cmsg hv]

end Kinds

/-! ### Iterations -/

section Iterations
variable {t : Iter}

theorem gated_wire {v : Int} {es : List Sent} (hcurpv : t.w'.z.session.curpv = v) (hout : t.out = (wire v es).flatten)
    (hes : Sendable v es) : t.Gated ↔ (Known v → ∀ e ∈ es, Allowed v e.1) := by
  subst hcurpv
  rw [Iter.Gated, outputs_iff hout (wire_packets hes), wire, List.forall_mem_map]
  refine forall_congr' fun _ => forall_congr' fun e => forall_congr' fun he => ?_
  have hevent := packetEvent_packet (hes e he).1 (hes e he).2
  rw [head_packet] at hevent ⊢
  constructor
  · intro hall
    have := hall _ rfl
    rwa [hevent _ rfl] at this
  · intro hallowed n hn
    rw [hevent n hn]
    exact hallowed

theorem utters_allowed {w : World} {nxt ct : Mcctyp} {v : Option Val} {es : List Sent} (h : Utters w nxt v es ct)
    (hv : Known w.z.session.curpv) : (∀ e ∈ es, Allowed w.z.session.curpv e.1) ↔ ¬Above w ct := by
  have hold : ∀ {e : Mcsevt}, e.code ≤ Mcsevt.ehead.code → Allowed w.z.session.curpv e := allowed_old hv
  have hgreets : ∀ e ∈ greets w nxt, Allowed w.z.session.curpv e.1 := by
    intro e he
    rw [greets] at he
    split at he
    · exact hold (joins_old _ _ e he)
    · cases he
  have hnone : ∀ e ∈ ([] : List Sent), Allowed w.z.session.curpv e.1 := fun _ he => absurd he List.not_mem_nil
  cases ct
  case name =>
    rcases h with ⟨hlong, rfl⟩ | ⟨hshort, rfl⟩
    · simp [Above, bye, allowed_pbye hv, hlong]
    · exact iff_of_true hgreets (by simp [Above, hshort])
  case pass =>
    obtain rfl : es = greets w nxt := h
    exact iff_of_true hgreets (by simp [Above])
  case cflgs =>
    obtain rfl : es = greets w nxt := h
    exact iff_of_true hgreets (by simp [Above])
  case blkch =>
    obtain rfl : es = [_, ping] := h
    refine iff_of_true (fun e he => ?_) (by simp [Above])
    simp only [List.mem_cons, List.not_mem_nil, or_false] at he
    rcases he with rfl | rfl <;> exact hold (by simp [Mcsevt.code, ping])
  case actrstat =>
    obtain rfl : es = if w.z.flg = 0 then [ping] else plays w w.z.cent.toMceup (ctactrstat.new v) := h
    by_cases hflg : w.z.flg = 0
    · rw [if_pos hflg]
      refine iff_of_true (fun e he => ?_) (by simp [Above, hflg])
      rw [List.mem_singleton.mp he]
      exact hold (by simp [Mcsevt.code, ping])
    · rw [if_neg hflg, plays_allowed _ _ hv]
      simp [Above, hflg]
  case msg =>
    have hkinds : es.map Prod.fst = speeches w := h
    rw [← List.forall_mem_map (f := Prod.fst) (P := Allowed w.z.session.curpv), hkinds, speeches_allowed hv]
    simp [Above]
  all_goals
    obtain rfl : es = [] := h
    exact iff_of_true hnone (by simp [Above])

theorem step_gated (hs : Serves t.ct t.w) (hok : start.loop.Ok t) : t.Gated ↔ ¬t.Oversteps := by
  rcases Iter.utters hs hok with ⟨hneg, -, hout⟩ | ⟨hqty, htype, s, dst, v, es, hread, hcurpv, hout, hes, hutters⟩
  · refine iff_of_true (fun _ => ⟨[], fun _ hp => absurd hp List.not_mem_nil, hout.symm, fun _ hp => absurd hp List.not_mem_nil⟩) ?_
    rintro ⟨hqty, -⟩
    omega
  -- Only a version changes the version, and a version is not answered.
  have habove : Above (t.rd.withSession s) t.ct ↔ Above t.rd t.ct := by
    have hkeep : t.ct ≠ .version → s.curpv = t.rd.z.session.curpv := by
      intro hct
      rw [(mcsread_frame hread).2.2, readpv, if_neg fun h => hct (htype ▸ h.1), t.rd_z]
    by_cases hct : t.ct = .version
    · simp [Above, hct]
    · have hsame : (t.rd.withSession s).z.session.curpv = t.rd.z.session.curpv := hkeep hct
      rw [Above, Above, hsame]
      rfl
  rw [gated_wire hcurpv hout hes, Iter.Oversteps, and_iff_right hqty, ← habove]
  by_cases hv : Known s.curpv
  · rw [imp_iff_right hv]
    exact utters_allowed hutters hv
  · refine iff_of_true (fun h => absurd h hv) fun h => hv ?_
    have hone : s.curpv = 0 ∨ s.curpv = 1 := by
      rcases h with ⟨-, h, -⟩ | ⟨-, h, -⟩ | ⟨-, ⟨h, -⟩ | ⟨h, -⟩⟩
      · exact h
      all_goals first | exact Or.inl h | exact Or.inr h
    rcases hone with h | h <;> rw [h] <;> exact ⟨by decide, by decide⟩

end Iterations

/-- What the server gives away is of events that the version knows exactly where no iteration oversteps, and no event that
    is above the maximum is refused. -/
theorem gated_iff {ldefault : Ptr} {ldsize : Int16} {lddim : Mcvec} {stdin : List UInt8} {h : List Iter}
    {s : Mcctyp × World} (hrun : Starts ldefault ldsize lddim stdin h s) :
    (Always (fun _ t => t.Gated) h ↔ Always (fun _ t => ¬t.Oversteps) h) ∧
    ∀ (s : Mcx) (q : Int) (e : Mcsevt), s.Idle → Known s.curpv →
      ((¬Allowed s.curpv e → mcswr s q (.evt e) = some ⟨MCEINVALIDOP, s, .evt e, []⟩) ↔ Allowed s.curpv e) := by
  refine ⟨?_, fun s q e hidle hv => ⟨fun hrefuses => ?_, fun h hno => absurd h hno⟩⟩
  · exact hrun.always_iff (fun _ s => Serves s.1 s.2) (csetup_serves ldefault ldsize lddim stdin)
      (fun _ _ hs hok _ => step_serves hs hok) fun _ _ hs hok => step_gated hs hok
  · by_contra hno
    have he : seencode e ≠ .invalid := fun he => hno (allowed_old hv (by cases e <;> first | decide | cases he))
    have hwr := hrefuses hno
    rw [mcswr_start hidle.1 hidle.2 he] at hwr
    have hret := congrArg Swr.ret (Option.some.inj hwr)
    revert hret
    split <;> simp [MCEINVALIDOP, MCENOTENOUGH, Mcerr.code]

/-- A greeting of version 7, and a goodbye at version 1. -/
theorem gated_iff_greeting : ∃ (h : List Iter) (s : Mcctyp × World),
    Starts (fun _ => 0) 0 {} (0 :: 7 :: 65 :: List.replicate 63 32) h s ∧ h.length = 3 ∧
    (Always (fun _ t => t.Gated) h ↔ Always (fun _ t => ¬t.Oversteps) h) ∧
    ((¬Allowed 1 .pbye → mcswr (fresh 1) 16 (.evt .pbye) = some ⟨MCEINVALIDOP, fresh 1, .evt .pbye, []⟩) ↔ Allowed 1 .pbye) := by
  have hrun := starts_steps (fun _ => 0) 0 {} (0 :: 7 :: 65 :: List.replicate 63 32) 3
  obtain ⟨hruns, hrefuses⟩ := gated_iff hrun
  exact ⟨_, _, hrun, rfl, hruns, hrefuses (fresh 1) 16 .pbye ⟨rfl, rfl⟩ ⟨by decide, by decide⟩⟩

/-- A greeting of version 0 with a name of 64 letters is answered with a goodbye. -/
theorem name_oversteps : ∃ (h : List Iter) (s : Mcctyp × World),
    Starts (fun _ => 0) 0 {} (0 :: List.replicate 64 65) h s ∧ ¬Always (fun _ t => t.Gated) h := by
  refine ⟨_, _, starts_steps (fun _ => 0) 0 {} (0 :: List.replicate 64 65) 3, ?_⟩
  have hshape : ∃ t h, (start.steps 3 [] (.evtno, csetup (lload (fun _ => 0) 0 {}) (0 :: List.replicate 64 65))).1 = t :: h ∧
      t.w'.z.session.curpv = 0 ∧ t.out.head? = some 14 := ⟨_, _, rfl, rfl, by decide +kernel⟩
  obtain ⟨t, h, hsteps, hcurpv, hout⟩ := hshape
  rw [hsteps]
  rintro ⟨-, hgated⟩
  obtain ⟨ps, hps, hflat, hallowed⟩ := hgated (hcurpv ▸ ⟨by decide, by decide⟩)
  cases ps with
  | nil =>
    rw [← hflat] at hout
    cases hout
  | cons p ps =>
    obtain ⟨n, hn, -⟩ := hps p List.mem_cons_self
    rw [← hflat, List.flatten_cons, List.head?_append, Option.mem_def.mp hn] at hout
    have hbye : n = 14 := Option.some.inj hout
    have hallowed := hallowed p List.mem_cons_self n hn
    rw [hbye, hcurpv] at hallowed
    exact ((allowed_pbye ⟨by decide, by decide⟩).mp hallowed).1 rfl

end ClassicX
