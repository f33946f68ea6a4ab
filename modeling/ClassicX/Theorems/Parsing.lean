import Mathlib.Tactic.IntervalCases
import ClassicX.Mccp.Grammar
import ClassicX.Theorems.Reading

/-! The reader parses what a client sends: for every sequence of packets, delivered in any pieces, each
call is answered with the type that comes next, and stores the values and the bytes of the strings. -/

namespace ClassicX

/-! ### Bytes -/

theorem word_bytes (w : UInt16) :
    ((w >>> 8).toUInt8.toUInt16 <<< 8 ||| (0xFF &&& w).toUInt8.toUInt16) = w := by
  apply UInt16.toNat_inj.mp
  have hw : w.toNat < 65536 := w.toNat_lt
  have hhigh : ((w >>> 8).toUInt8.toUInt16).toNat = w.toNat / 256 := by
    simp [Nat.shiftRight_eq_div_pow]
    omega
  have hlow : ((0xFF &&& w).toUInt8.toUInt16).toNat = w.toNat % 256 := by
    have : 255 &&& w.toNat % 256 = w.toNat % 256 := by
      rw [Nat.and_comm, Nat.and_two_pow_sub_one_eq_mod (w.toNat % 256) 8]
      exact Nat.mod_mod _ _
    simp [this]
  have hshift : ((w >>> 8).toUInt8.toUInt16 <<< 8).toNat = 2 ^ 8 * (w.toNat / 256) := by
    rw [UInt16.toNat_shiftLeft, hhigh, Nat.shiftLeft_eq]
    simp
    omega
  rw [UInt16.toNat_or, hshift, hlow, ← Nat.two_pow_add_eq_or_of_lt (by omega)]
  omega

/-- A word is read as it was written. -/
theorem readi_writei {x : Int16} {src : Ptr} (h : Holds src (writei x)) : readi src = x := by
  have h0 : src 0 = (x.toUInt16 >>> 8).toUInt8 := h 0 (by simp [writei])
  have h1 : src 1 = (0xFF &&& x.toUInt16).toUInt8 := h 1 (by simp [writei])
  rw [readi, h0, h1, word_bytes]
  simp

theorem readb_writeb {x : Int8} {src : Ptr} (h : Holds src (writeb x)) : readb src = x := by
  have h0 : src 0 = x.toUInt8 := h 0 (by simp [writeb])
  rw [readb, h0]
  simp

theorem holds_append {src : Ptr} {a b : List UInt8} (h : Holds src (a ++ b)) :
    Holds src a ∧ Holds (src.incr a.length) b := by
  refine ⟨fun i hi => ?_, fun i hi => ?_⟩
  · rw [h i (by rw [List.length_append]; omega), List.getElem_append_left]
  · have := h (a.length + i) (by rw [List.length_append]; omega)
    rw [List.getElem_append_right (by omega)] at this
    simp only [Nat.add_sub_cancel_left] at this
    rw [← this, Fields.Source.incr]
    push_cast
    rw [add_comm]

theorem i3read_writevec {v : Mcvec} {src : Ptr} (h : Holds src (writevec v)) : i3read src = v := by
  obtain ⟨hxy, hz⟩ := holds_append h
  obtain ⟨hx, hy⟩ := holds_append hxy
  have hy' : readi (src.incr 2) = v.y := readi_writei hy
  have hz' : readi (src.incr 4) = v.z := readi_writei hz
  rw [i3read, readi_writei hx, hy', hz']

theorem mcopy_holds {src : Ptr} {bs : List UInt8} (h : Holds src bs) (hlen : bs.length < 65536) :
    mcopy_ src bs.length = bs := by
  have : ((bs.length : Int) % 65536).toNat = bs.length := by omega
  refine List.ext_getElem (by simp [mcopy_, this]) fun i h₁ h₂ => ?_
  simp [mcopy_, Fields.piece, h i h₂]

/-! ### One part -/

/-- The calls are answered, up to the end of a packet. -/
def Parsed (s : Mcx) (as : List Ask) : Prop := ∃ s', Answers s as s' ∧ AtBoundary s'

theorem parsed_fixed {s : Mcx} {t : Mcctyp} {bs : List UInt8} {v : Val} {ps : List Part} {as : List Ask} (s' : Mcx)
    (h : Delivers s.curpv (.fixed t bs v :: ps) as)
    (hread : ∀ src, Holds src bs → mcsread s src bs.length true = some (nextType ps, s', some v))
    (hpv : s'.curpv = v.pv s.curpv) (hrest : ∀ as', Delivers s'.curpv ps as' → Parsed s' as') : Parsed s as := by
  cases h with
  | fixed src hsrc h =>
    obtain ⟨s'', hans, hb⟩ := hrest _ (hpv ▸ h)
    exact ⟨s'', .cons (hread src hsrc) hpv hans, hb⟩

theorem mcsread_string {next : Int → Mcseri Mccevt Mcctyp → Mcseri Mccevt Mcctyp} {s : Mcx} {src : Ptr} {a b : List UInt8}
    (hrd : ctrd s.r.type = some (rctString next)) (hrem : s.r.rem = (a ++ b).length) (hlen : (a ++ b).length < 65536)
    (hsrc : Holds src a) :
    mcsread s src a.length true =
      some ((if b = [] then next s.curpv { s.r with rem := 0 } else { s.r with rem := b.length }).type,
        { s with r := if b = [] then next s.curpv { s.r with rem := 0 } else { s.r with rem := b.length } },
        some (.str a)) := by
  rw [List.length_append] at hrem hlen
  have hmin : min (a.length : Int) s.r.rem = a.length := by omega
  have hleft : s.r.rem - (a.length : Int) = b.length := by omega
  have hnil : (0 : Int) = b.length ↔ b = [] := by
    rw [← List.length_eq_zero_iff]
    omega
  have htook : took next s a.length = if b = [] then next s.curpv { s.r with rem := 0 } else { s.r with rem := b.length } := by
    simp only [took, hleft, hnil]
    split
    · simp [*]
    · rfl
  simp only [mcsread, hrd, rctString_eq, hmin, htook, mcopy_holds hsrc (by omega), Option.bind_eq_bind, Option.bind_some,
    if_true]

theorem parsed_string {next : Int → Mcseri Mccevt Mcctyp → Mcseri Mccevt Mcctyp} {s : Mcx} {t : Mcctyp} {bs : List UInt8}
    {ps : List Part} {as : List Ask} (h : Delivers s.curpv (.string t bs :: ps) as) (ht : s.r.type = t)
    (hrd : ctrd t = some (rctString next)) (hrem : s.r.rem = bs.length) (hlen : bs.length < 65536)
    (hnext : (next s.curpv { s.r with rem := 0 }).type = nextType ps)
    (hrest : ∀ as', Delivers s.curpv ps as' → Parsed { s with r := next s.curpv { s.r with rem := 0 } } as') : Parsed s as := by
  -- The induction is on the calls: each takes a piece off the string.
  induction as generalizing s bs with
  | nil => cases h
  | cons a as ih =>
    cases h with
    | @piece _ _ a b _ _ src hsrc hne h =>
      subst ht
      have hread := mcsread_string hrd hrem hlen hsrc
      rw [if_neg hne] at hread
      have hb : b.length < 65536 := by
        rw [List.length_append] at hlen
        omega
      obtain ⟨s'', hans, hb⟩ := ih (s := { s with r := { s.r with rem := b.length } }) h rfl rfl hb hnext hrest
      exact ⟨s'', .cons hread rfl hans, hb⟩
    | @last _ _ bs _ _ src hsrc hne h =>
      have hread := mcsread_string (b := []) (by rw [ht]; exact hrd) (by rwa [List.append_nil])
        (by rwa [List.append_nil]) hsrc
      rw [if_pos rfl, hnext] at hread
      obtain ⟨s'', hans, hb⟩ := hrest _ h
      exact ⟨s'', .cons hread rfl hans, hb⟩

/-! ### One packet -/

theorem mcctlen_eq {s : Mcx} (hpv : s.curpv ≤ MCPVMAX) {t : Mcctyp} (ht : t ≠ .name) : mcctlen s t = ctlen t := by
  rw [mcctlen, if_pos hpv]
  simp [ht.symm]

/-- A call of the reader of a type. -/
theorem mcsread_eq {s s' : Mcx} {src : Ptr} {qty : Int} {dst : Bool} {t : Mcctyp} {v : Option Val}
    {f : Mcx → Ptr → Int → Bool → Option Rd} (ret : Int) (hrd : ctrd s.r.type = some f)
    (hf : f s src qty dst = some ⟨ret, s', v⟩) (ht : s'.r.type = t) : mcsread s src qty dst = some (t, s', v) := by
  simp only [mcsread, hrd, hf, Option.bind_eq_bind, Option.bind_some, ht]

theorem mcsread_number {s : Mcx} {src : Ptr} (e : Mccevt) (hb : AtBoundary s) (hsrc : cedecode (src 0).toNat = e)
    (he : e ≠ .nothing) : mcsread s src 1 true = some (ten e, { s with r := ⟨s.r.rem, e, ten e⟩ }, some (.evt e)) := by
  refine mcsread_eq 1 (by rw [hb.type]; rfl) ?_ rfl
  simp [rctEventNumber, mcctlen_eq hb.pv.2, ctlen, hsrc, he]

/-- The entity number, of a player state or a chat message. -/
theorem mcsread_actrno (dst : Bool) {s : Mcx} {src : Ptr} {eno : Int8} {tup : Mcseri Mccevt Mcctyp → Mcseri Mccevt Mcctyp}
    (hpv : s.curpv ≤ MCPVMAX) (ht : s.r.type = .actrno) (htup : ctup s.r.evt = some tup) (hsrc : Holds src (writeb eno)) :
    mcsread s src 1 dst = some ((tup s.r).type, { s with r := tup s.r }, if dst then some (.eno eno) else none) := by
  refine mcsread_eq 1 (by rw [ht]; rfl) ?_ rfl
  simp [rctActorNumber, mcctlen_eq hpv, ctlen, htup, readb_writeb hsrc]

/-- The version and the serializer that follow from the byte `b` where a version is expected. -/
def probes (r : Mcseri Mccevt Mcctyp) (b : UInt8) : Int × Mcseri Mccevt Mcctyp :=
  if 32 > b then ((b.toNat : Int), tchngs r .name) else (0, tchng { r with rem := MCSTRLEN - 1 } .name)

theorem mcsread_probe (src : Ptr) {s : Mcx} (hpv : s.curpv ≤ MCPVMAX) (ht : s.r.type = .version) :
    mcsread s src 1 true = some (.name, { s with curpv := (probes s.r (src 0)).1, r := (probes s.r (src 0)).2 },
      some (.ver (probes s.r (src 0)).1)) := by
  refine mcsread_eq 1 (by rw [ht]; rfl) ?_ ?_
  · simp only [rctVersion, mcctlen_eq hpv (by decide : Mcctyp.version ≠ .name), ctlen]
    rfl
  · dsimp only
    rw [probes]
    split <;> rfl

theorem mcsread_blkch {s : Mcx} {src : Ptr} {upd : Mcbup} (hpv : s.curpv ≤ MCPVMAX) (ht : s.r.type = .blkch)
    (hsrc : Holds src (writevec upd.bpos ++ writeb upd.umod ++ writeb upd.bnew)) :
    mcsread s src 8 true = some (.evtno, { s with r := rdone s.r }, some (.bup upd)) := by
  refine mcsread_eq 8 (by rw [ht]; rfl) ?_ rfl
  obtain ⟨hpos, hnew⟩ := holds_append hsrc
  obtain ⟨hpos, hmod⟩ := holds_append hpos
  have hmod' : readb (src.incr 6) = upd.umod := readb_writeb hmod
  have hnew' : readb (src.incr 7) = upd.bnew := readb_writeb hnew
  simp [rctBlockChange, mcctlen_eq hpv, ctlen, i3read_writevec hpos, hmod', hnew']

theorem mcsread_stat {s : Mcx} {src : Ptr} {epos : Mcvec} {head : Mchead} (hpv : s.curpv ≤ MCPVMAX)
    (ht : s.r.type = .actrstat) (hsrc : Holds src (writevec epos ++ write2u head)) :
    mcsread s src 8 true = some (.evtno, { s with r := rdone s.r }, some (.stat epos head)) := by
  refine mcsread_eq 8 (by rw [ht]; rfl) ?_ rfl
  obtain ⟨hpos, hhead⟩ := holds_append hsrc
  have hyaw : readu (src.incr 6) = head.yaw := hhead 0 (by simp [write2u, writeu])
  have hphi : readu (src.incr 7) = head.phi := (holds_append hhead).2 0 (by simp [writeu])
  simp [rctActorState, mcctlen_eq hpv, ctlen, i3read_writevec hpos, hyaw, hphi]

theorem mcsread_cflgs {s : Mcx} {src : Ptr} {flags : Int8} (hpv : s.curpv ≤ MCPVMAX) (ht : s.r.type = .cflgs)
    (hsrc : Holds src (writeb flags)) :
    mcsread s src 1 true = some (.evtno, { s with r := rdone s.r }, some (.flg flags)) := by
  refine mcsread_eq 1 (by rw [ht]; rfl) ?_ rfl
  simp [rctClientFlags, mcctlen_eq hpv, ctlen, readb_writeb hsrc]

theorem parsed_number {s : Mcx} {n : UInt8} (e : Mccevt) {ps : List Part} {as : List Ask} (hb : AtBoundary s)
    (hn : cedecode n.toNat = e) (he : e ≠ .nothing) (h : Delivers s.curpv (numberPart n e :: ps) as) (hps : nextType ps = ten e)
    (hrest : ∀ as', Delivers s.curpv ps as' → Parsed { s with r := ⟨s.r.rem, e, ten e⟩ } as') : Parsed s as := by
  refine parsed_fixed { s with r := ⟨s.r.rem, e, ten e⟩ } h (fun src hsrc => ?_) rfl hrest
  have h0 : src 0 = n := hsrc 0 (by simp)
  rw [hps]
  exact mcsread_number e hb (h0 ▸ hn) he

theorem parsed_actrno {s : Mcx} {eno : Int8} {tup : Mcseri Mccevt Mcctyp → Mcseri Mccevt Mcctyp} {ps : List Part}
    {as : List Ask} (hpv : s.curpv ≤ MCPVMAX) (ht : s.r.type = .actrno) (htup : ctup s.r.evt = some tup)
    (h : Delivers s.curpv (.fixed .actrno (writeb eno) (.eno eno) :: ps) as) (hps : nextType ps = (tup s.r).type)
    (hrest : ∀ as', Delivers s.curpv ps as' → Parsed { s with r := tup s.r } as') : Parsed s as := by
  refine parsed_fixed { s with r := tup s.r } h (fun src hsrc => ?_) rfl hrest
  rw [hps]
  exact mcsread_actrno _ hpv ht htup hsrc

theorem parsed_version {s : Mcx} {b : UInt8} (pv : Int) (r : Mcseri Mccevt Mcctyp) {ps : List Part} {as : List Ask}
    (hpv : s.curpv ≤ MCPVMAX) (ht : s.r.type = .version) (hb : probes s.r b = (pv, r))
    (h : Delivers s.curpv (.fixed .version [b] (.ver pv) :: ps) as) (hps : nextType ps = .name)
    (hrest : ∀ as', Delivers pv ps as' → Parsed { s with curpv := pv, r := r } as') : Parsed s as := by
  refine parsed_fixed { s with curpv := pv, r := r } h (fun src hsrc => ?_) rfl hrest
  have h0 : src 0 = b := hsrc 0 (by simp)
  have hread := mcsread_probe src hpv ht
  rw [h0, hb] at hread
  rw [hps]
  exact hread

theorem probes_old (r : Mcseri Mccevt Mcctyp) {b : UInt8} (hb : 32 ≤ b) : probes r b = (0, ⟨MCSTRLEN - 1, r.evt, .name⟩) := by
  rw [probes, if_neg (UInt8.not_lt.mpr hb)]
  rfl

theorem probes_ver (r : Mcseri Mccevt Mcctyp) {v : Int} (hv : 0 ≤ v ∧ v ≤ 7) :
    probes r (UInt8.ofNat v.toNat) = (v, ⟨MCSTRLEN, r.evt, .name⟩) := by
  have hver : ((UInt8.ofNat v.toNat).toNat : Int) = v := by
    rw [UInt8.toNat_ofNat']
    omega
  have hlow : 32 > UInt8.ofNat v.toNat := by
    rw [gt_iff_lt, UInt8.lt_iff_toNat_lt, UInt8.toNat_ofNat']
    simp
    omega
  rw [probes, if_pos hlow, hver]
  rfl

theorem parsed_packet {s : Mcx} {p : CPacket} {ps : List Part} {as : List Ask} (hb : AtBoundary s)
    (hps : nextType ps = .evtno) (h : Delivers s.curpv (p.parts ++ ps) as)
    (hrest : ∀ s' as', AtBoundary s' → Delivers s'.curpv ps as' → Parsed s' as') : Parsed s as := by
  have hpv := hb.pv.2
  cases p with
  | greeting0 name hprint =>
    refine parsed_number .greeting hb rfl (by decide) h rfl fun as h => ?_
    refine parsed_version 0 ⟨MCSTRLEN - 1, .greeting, .name⟩ hpv rfl ?_ h rfl fun as h => ?_
    · exact probes_old _ hprint
    refine parsed_string h rfl rfl ?_ ?_ ?_ fun as h => ?_
    · simp [MCSTRLEN, name.property]
    · simp [name.property]
    · exact hps.symm
    · exact hrest _ as ⟨rfl, rfl, le_rfl, (by decide : (0 : Int) ≤ MCPVMAX)⟩ h
  | greeting v hv name pass flags =>
    refine parsed_number .greeting hb rfl (by decide) h rfl fun as h => ?_
    refine parsed_version v ⟨MCSTRLEN, .greeting, .name⟩ hpv rfl (probes_ver _ ⟨by omega, hv.2⟩) h rfl fun as h => ?_
    have hpv' : 0 ≤ v ∧ v ≤ MCPVMAX := ⟨by omega, hv.2⟩
    by_cases h₃ : 3 > v
    · simp only [if_pos h₃] at h
      refine parsed_string h rfl rfl ?_ ?_ ?_ fun as h => ?_
      · simp [MCSTRLEN, name.property]
      · simp [name.property]
      · simp only [if_pos h₃]
        exact hps.symm
      · exact hrest _ as (by simp only [if_pos h₃]; exact ⟨rfl, rfl, hpv'⟩) h
    simp only [if_neg h₃] at h
    refine parsed_string h rfl rfl ?_ ?_ ?_ fun as h => ?_
    · simp [MCSTRLEN, name.property]
    · simp [name.property]
    · simp only [if_neg h₃]
      rfl
    simp only [if_neg h₃]
    by_cases h₆ : 6 > v
    · simp only [if_pos h₆] at h
      refine parsed_string h rfl rfl ?_ ?_ ?_ fun as h => ?_
      · simp [tchngs, tchng, MCSTRLEN, pass.property]
      · simp [pass.property]
      · simp only [if_pos h₆]
        exact hps.symm
      · exact hrest _ as (by simp only [if_pos h₆]; exact ⟨rfl, rfl, hpv'⟩) h
    simp only [if_neg h₆] at h
    refine parsed_string h rfl rfl ?_ ?_ ?_ fun as h => ?_
    · simp [tchngs, tchng, MCSTRLEN, pass.property]
    · simp [pass.property]
    · simp only [if_neg h₆]
      rfl
    simp only [if_neg h₆]
    refine parsed_fixed { s with curpv := v, r := ⟨0, .nothing, .evtno⟩ } h (fun src hsrc => ?_) rfl fun as h =>
      hrest _ as ⟨rfl, rfl, hpv'⟩ h
    exact (mcsread_cflgs hpv'.2 rfl hsrc).trans (congrArg (fun t => some (t, _, _)) hps.symm)
  | blkedit upd =>
    refine parsed_number .blkedit hb rfl (by decide) h rfl fun as h => ?_
    refine parsed_fixed { s with r := rdone ⟨s.r.rem, .blkedit, .blkch⟩ } h (fun src hsrc => ?_) rfl fun as h =>
      hrest _ as ⟨rfl, rfl, hb.pv⟩ h
    exact (mcsread_blkch (s := { s with r := ⟨s.r.rem, .blkedit, .blkch⟩ }) hpv rfl hsrc).trans (congrArg (fun t => some (t, _, _)) hps.symm)
  | plyrstat eno epos head =>
    refine parsed_number .plyrstat hb rfl (by decide) h rfl fun as h => ?_
    refine parsed_actrno hpv rfl rfl h rfl fun as h => ?_
    refine parsed_fixed { s with r := rdone ⟨s.r.rem, .plyrstat, .actrstat⟩ } h (fun src hsrc => ?_) rfl fun as h =>
      hrest _ as ⟨rfl, rfl, hb.pv⟩ h
    exact (mcsread_stat (s := { s with r := ⟨s.r.rem, .plyrstat, .actrstat⟩ }) hpv rfl hsrc).trans (congrArg (fun t => some (t, _, _)) hps.symm)
  | chatmsg eno msg =>
    refine parsed_number .chatmsg hb rfl (by decide) h rfl fun as h => ?_
    refine parsed_actrno hpv rfl rfl h rfl fun as h => ?_
    refine parsed_string h rfl rfl ?_ ?_ ?_ fun as h => ?_
    · simp [tchngs, tchng, MCSTRLEN, msg.property]
    · simp [msg.property]
    · exact hps.symm
    · exact hrest _ as ⟨rfl, rfl, hb.pv⟩ h

/-! ### Every sequence of packets -/

theorem nextType_packets (packets : List CPacket) : nextType (packets.flatMap CPacket.parts) = .evtno := by
  cases packets with
  | nil => rfl
  | cons p packets => cases p <;> rfl

theorem parsed_packets {packets : List CPacket} {s : Mcx} {as : List Ask} (hb : AtBoundary s)
    (h : Delivers s.curpv (packets.flatMap CPacket.parts) as) : Parsed s as := by
  induction packets generalizing s as with
  | nil =>
    cases h
    exact ⟨s, .nil, hb⟩
  | cons p packets ih => exact parsed_packet hb (nextType_packets packets) h fun s' as' hb' h' => ih hb' h'

/-- Packets are the numbers 0, 5, 8 and 13. -/
theorem cedecode_nothing {n : UInt8} (hn : n ≠ 0 ∧ n ≠ 5 ∧ n ≠ 8 ∧ n ≠ 13) : cedecode n.toNat = .nothing := by
  have hsmall : ∀ i : ℕ, i < 16 → i ≠ 0 ∧ i ≠ 5 ∧ i ≠ 8 ∧ i ≠ 13 → cedecode i = .nothing := by decide
  have hnat : ∀ m : UInt8, n ≠ m → n.toNat ≠ m.toNat := fun m hm h => hm (UInt8.toNat_inj.mp h)
  by_cases h16 : n.toNat < 16
  · exact hsmall n.toNat h16 ⟨hnat 0 hn.1, hnat 5 hn.2.1, hnat 8 hn.2.2.1, hnat 13 hn.2.2.2⟩
  · rw [cedecode, if_pos (Or.inr (by simp only [dec, List.length_cons, List.length_nil]; omega))]

/-- The reader parses every sequence of client packets, in whatever pieces their strings come. It answers
    each call with the type that comes next, which is `MCCTEVTNO` at the ends of packets only, and stores the
    values and the bytes of the strings in order; the session has the version of the last greeting. A byte
    that is not the number of a packet is answered with `MCCTINVALID`. -/
theorem mcsread_parses (s : Mcx) (packets : List CPacket) (as : List Ask) (hb : AtBoundary s)
    (h : Delivers s.curpv (packets.flatMap CPacket.parts) as) :
    ∃ s', Answers s as s' ∧ AtBoundary s' ∧
      ∀ src : Ptr, src 0 ≠ 0 ∧ src 0 ≠ 5 ∧ src 0 ≠ 8 ∧ src 0 ≠ 13 →
        ∃ s'' v, mcsread s' src 1 true = some (.invalid, s'', v) := by
  obtain ⟨s', hans, hb'⟩ := parsed_packets hb h
  refine ⟨s', hans, hb', fun src hsrc =>
    ⟨{ s' with r := ⟨s'.r.rem, .nothing, .invalid⟩ }, some (.evt .nothing), mcsread_eq 1 (by rw [hb'.type]; rfl) ?_ rfl⟩⟩
  simp only [rctEventNumber, mcctlen_eq hb'.pv.2 (by decide : Mcctyp.evtno ≠ .name), ctlen, cedecode_nothing hsrc]
  rfl

/-- A block edit, delivered to a session that was reset. -/
theorem mcsread_parses_blkedit : ∃ s', Answers (fresh 7)
    [⟨fun _ => 5, 1, .blkch, .evt .blkedit, 7⟩, ⟨fun i => if i = 7 then 1 else 0, 8, .evtno, .bup ⟨{}, 0, 1⟩, 7⟩] s' := by
  have hpos : Holds (fun i => if i = 7 then 1 else 0) (writevec {} ++ writeb 0 ++ writeb 1) := by
    intro i hi
    have : i < 8 := hi
    interval_cases i <;> rfl
  have h : Delivers 7 ([.blkedit ⟨{}, 0, 1⟩].flatMap CPacket.parts)
      [⟨fun _ => 5, 1, .blkch, .evt .blkedit, 7⟩, ⟨fun i => if i = 7 then 1 else 0, 8, .evtno, .bup ⟨{}, 0, 1⟩, 7⟩] :=
    .fixed (v := .evt .blkedit) _ (by simp [Holds]) (.fixed (v := .bup ⟨{}, 0, 1⟩) _ hpos .nil)
  obtain ⟨s', hans, -⟩ := mcsread_parses (fresh 7) [.blkedit ⟨{}, 0, 1⟩] _ ⟨rfl, rfl, by decide, by decide⟩ h
  exact ⟨s', hans⟩

end ClassicX
