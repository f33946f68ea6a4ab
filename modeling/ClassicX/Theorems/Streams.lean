import ClassicX.Theorems.Progress

/-! The reader and the loop take the same bytes of a string off the input, but for a greeting with version byte 0: its name
is read in 63 bytes, as that of a greeting without a version, and counted as 64. -/

namespace ClassicX
open Runs (Always)

/-- The byte that was read last where a version is expected: a version, or the first character of a name. -/
def lastProbe : List Iter → Option UInt8
  | [] => none
  | t :: h => if t.ct = .version ∧ 0 < t.qty then some (t.rd.inbuf 0) else lastProbe h

/-- The version that follows from the byte. -/
def probed (b : UInt8) : Int := if 32 > b then b.toNat else 0

/-- The length of the name that follows. -/
def nameLen (b : UInt8) : Int := if 32 > b then MCSTRLEN else MCSTRLEN - 1

/-! ### One call -/

/-- A string after a call is the one before the call, of which something remains, or one that starts. -/
theorem mcsread_string_cases {s s' : Mcx} {src : Ptr} {qty : Int} {dst : Bool} {t : Mcctyp} {v : Option Val}
    (h : mcsread s src qty dst = some (t, s', v)) (hstr : Strings s'.r.type) :
    s.r.type = s'.r.type ∧ s'.r.rem = s.r.rem - min qty s.r.rem ∧ s'.r.rem ≠ 0 ∨
      s.r.type = .version ∧ s'.r.type = .name ∧ mcctlen s .version ≤ qty ∧ s'.r.rem = nameLen (src 0) ∨
      (s'.r.type = .pass ∨ s'.r.type = .msg) ∧ s'.r.rem = MCSTRLEN := by
  have hread : ∀ {f : Mcx → Ptr → Int → Bool → Option Rd}, ctrd s.r.type = some f →
      ∃ o, f s src qty dst = some o ∧ s' = o.ctx := by
    intro f hf
    simp only [mcsread, hf, Option.bind_eq_bind, Option.bind_some, Option.bind_eq_some_iff, Option.some.injEq,
      Prod.mk.injEq] at h
    obtain ⟨o, ho, -, hs, -⟩ := h
    exact ⟨o, ho, hs.symm⟩
  have hdone : ∀ r : Mcseri Mccevt Mcctyp, ¬Strings (rdone r).type := fun r => by simp [Strings, rdone]
  -- A string goes on, or what follows it starts.
  have hstring : ∀ {next : Int → Mcseri Mccevt Mcctyp → Mcseri Mccevt Mcctyp}, ctrd s.r.type = some (rctString next) →
      (∀ r, Strings (next s.curpv r).type → (next s.curpv r).type = .pass ∧ (next s.curpv r).rem = MCSTRLEN) →
      s.r.type = s'.r.type ∧ s'.r.rem = s.r.rem - min qty s.r.rem ∧ s'.r.rem ≠ 0 ∨
        (s'.r.type = .pass ∨ s'.r.type = .msg) ∧ s'.r.rem = MCSTRLEN := by
    intro next hnext hstarts
    obtain ⟨o, ho, rfl⟩ := hread hnext
    rw [rctString_eq] at ho
    cases ho
    simp only [took] at hstr ⊢
    by_cases hz : 0 = s.r.rem - min qty s.r.rem
    · rw [if_pos hz] at hstr ⊢
      exact Or.inr ((hstarts _ hstr).imp_left Or.inl)
    · rw [if_neg hz]
      exact Or.inl ⟨rfl, rfl, Ne.symm hz⟩
  obtain ⟨ct, ht⟩ : ∃ ct, s.r.type = ct := ⟨_, rfl⟩
  cases ct
  case invalid => simp [mcsread, ht, ctrd] at h
  case version =>
    obtain ⟨o, ho, rfl⟩ := hread (by rw [ht]; rfl)
    simp only [rctVersion] at ho
    by_cases hshort : mcctlen s .version > qty
    · rw [if_pos hshort] at ho
      cases ho
      rw [ht] at hstr
      simp [Strings] at hstr
    · rw [if_neg hshort] at ho
      cases ho
      refine Or.inr (Or.inl ⟨ht, ?_, by omega, ?_⟩)
      · dsimp only
        split <;> rfl
      · rw [nameLen]
        split <;> rfl
  case name =>
    refine (hstring (by rw [ht]; rfl) fun r hr => ?_).imp_right Or.inr
    · split at hr
      · exact absurd hr (hdone r)
      · rename_i hv
        rw [if_neg hv]
        exact ⟨rfl, rfl⟩
  case pass =>
    refine (hstring (by rw [ht]; rfl) fun r hr => ?_).imp_right Or.inr
    · split at hr
      · exact absurd hr (hdone r)
      · simp [Strings, tchng] at hr
  case msg =>
    exact (hstring (by rw [ht]; rfl) fun r hr => absurd hr (hdone r)).imp_right Or.inr
  case actrno =>
    obtain ⟨o, ho, rfl⟩ := hread (by rw [ht]; rfl)
    simp only [rctActorNumber, Option.bind_eq_bind] at ho
    split at ho
    · cases ho
      rw [ht] at hstr
      simp [Strings] at hstr
    · cases he : s.r.evt <;> rw [he] at ho <;> cases ho
      · simp [Strings, tchng] at hstr
      · exact Or.inr (Or.inr ⟨Or.inr rfl, rfl⟩)
  case evtno =>
    obtain ⟨o, ho, rfl⟩ := hread (by rw [ht]; rfl)
    simp only [rctEventNumber] at ho
    have hten : ∀ e, ¬Strings (if e = .nothing then .invalid else ten e) := fun e => by cases e <;> simp [Strings, ten]
    by_cases hshort : mcctlen s .evtno > qty
    · rw [if_pos hshort] at ho
      cases ho
      rw [ht] at hstr
      simp [Strings] at hstr
    · rw [if_neg hshort] at ho
      cases dst <;> cases ho
      exact absurd hstr (hten _)
  all_goals
    obtain ⟨o, ho, rfl⟩ := hread (by rw [ht]; rfl)
    simp only [rctBlockChange, rctActorState, rctClientFlags] at ho
    split_ifs at ho <;> cases ho
    all_goals first | exact absurd hstr (hdone _) | (rw [ht] at hstr; simp [Strings] at hstr)

theorem mcsread_string_more {s s' : Mcx} {src : Ptr} {qty : Int} {dst : Bool} {t : Mcctyp} {v : Option Val}
    (h : mcsread s src qty dst = some (t, s', v)) (hstr : Strings s.r.type) (hmore : s.r.rem - min qty s.r.rem ≠ 0) :
    s'.r.type = s.r.type := by
  have hstring : ∀ {next : Int → Mcseri Mccevt Mcctyp → Mcseri Mccevt Mcctyp}, ctrd s.r.type = some (rctString next) →
      s'.r.type = s.r.type := by
    intro next hnext
    simp only [mcsread, hnext, rctString_eq, Option.bind_eq_bind, Option.bind_some] at h
    cases h
    simp only [took, if_neg (Ne.symm hmore)]
  rcases hstr with ht | ht | ht <;> exact hstring (by rw [ht]; rfl)

theorem mcsread_version {s s' : Mcx} {src : Ptr} {qty : Int} {dst : Bool} {t : Mcctyp} {v : Option Val}
    (htype : s.r.type = .version) (hqty : mcctlen s .version ≤ qty) (h : mcsread s src qty dst = some (t, s', v)) :
    s'.r.type = .name := by
  simp only [mcsread, htype, ctrd, rctVersion, if_neg (not_lt.mpr hqty), Option.bind_eq_bind, Option.bind_some] at h
  cases h
  dsimp only
  split <;> rfl

/-! ### The input -/

section Input
variable {stdin : Stdin} {qty : Int}

/-- An input that has met its end has nothing left. -/
theorem input_ended (h : stdin.eof = true → stdin.rest = []) :
    (input stdin qty).2.2.eof = true → (input stdin qty).2.2.rest = [] := by
  intro heof
  simp only [input, Bool.or_eq_true, decide_eq_true_eq, List.length_take] at heof ⊢
  rcases heof with heof | hless
  · rw [h heof, List.drop_nil]
  · exact List.drop_eq_nil_iff.mpr (by omega)

theorem input_nil (hrest : stdin.rest = []) : (input stdin qty).2.2.rest = [] := by
  simp only [input, hrest, List.drop_nil]

theorem input_full (hqty : 0 ≤ qty) (h : stdin.eof = true → stdin.rest = []) (hrest : (input stdin qty).2.2.rest ≠ []) :
    (input stdin qty).1 = qty := by
  have hdrop : stdin.rest.drop qty.toNat ≠ [] := hrest
  rw [ne_eq, List.drop_eq_nil_iff, not_le] at hdrop
  have heof : ¬(stdin.eof || decide ((stdin.rest.take qty.toNat).length < qty.toNat)) = true := by
    rw [Bool.or_eq_true, decide_eq_true_eq, List.length_take]
    rintro (heof | hless)
    · rw [h heof] at hdrop
      exact absurd hdrop (Nat.not_lt_zero _)
    · omega
  simp only [input]
  rw [if_neg fun hend => heof hend.2, List.length_take]
  omega

theorem input_takes (hqty : 0 ≤ qty) (hfull : (input stdin qty).1 = qty) :
    qty ≤ stdin.rest.length ∧ (input stdin qty).2.2.rest = stdin.rest.drop qty.toNat := by
  refine ⟨?_, rfl⟩
  simp only [input] at hfull
  split at hfull
  · omega
  · rw [List.length_take] at hfull
    omega

end Input

/-! ### The fields of an iteration -/

namespace Iter
variable {t : Iter}

/-- A string is asked for whole, or but for its first character, or the version is not known. -/
theorem asks_string (hstr : Strings t.ct) :
    ¬t.w.z.session.curpv ≤ MCPVMAX ∧ t.asks = 0 ∨
    t.w.z.session.curpv ≤ MCPVMAX ∧ t.asks = if 0 = t.w.z.session.curpv ∧ .greeting = t.w.z.session.r.evt ∧ .name = t.ct
      then MCSTRLEN - 1 else MCSTRLEN := by
  have hlen : ctlen t.ct = MCSTRLEN := by rcases hstr with h | h | h <;> rw [h] <;> rfl
  rw [asks, mcctlen, hlen]
  by_cases hpv : t.w.z.session.curpv ≤ MCPVMAX
  · exact Or.inr ⟨hpv, if_pos hpv⟩
  · exact Or.inl ⟨hpv, if_neg hpv⟩

theorem asks_nonneg (hstr : Strings t.ct) : 0 ≤ t.asks := by
  rcases asks_string hstr with ⟨-, h⟩ | ⟨-, h⟩
  · exact h.ge
  · rw [h, MCSTRLEN]
    split <;> decide

/-- The input delivers what it is asked for. -/
def Full (t : Iter) : Prop := (input t.w.stdin t.asks).1 = t.asks

/-- A string that is read in full is read by 64 bytes, with the first character of a name if that was read before. -/
theorem qty_full (hstr : Strings t.ct) (hfull : t.Full) : t.asks = 0 ∧ t.qty = 0 ∨ 0 < t.asks ∧ t.qty = MCSTRLEN := by
  rw [t.qty_eq, hfull]
  rcases asks_string hstr with ⟨-, h⟩ | ⟨-, h⟩
  · exact Or.inl ⟨h, by rw [h]; rfl⟩
  · refine Or.inr ?_
    rw [h]
    split <;> decide

end Iter

theorem mcctlen_evtno {s : Mcx} (h : Known s.curpv) : mcctlen s .evtno = 1 := by
  rw [mcctlen, if_pos h.2, if_neg (by simp)]
  rfl

/-! ### Runs -/

/-- What a run keeps of the input and of the string that is read: of a string of which nothing was read, everything
    remains. -/
structure Streams (h : List Iter) (ct : Mcctyp) (w : World) : Prop where
  serves : Serves ct w
  ended : w.stdin.eof = true → w.stdin.rest = []
  known : ct ≠ .invalid → w.z.session.r.type ≠ .name → Known w.z.session.curpv
  name : ct ≠ .invalid → w.z.session.r.type = .name → ∃ b, lastProbe h = some b ∧ w.z.session.curpv = probed b ∧
    (w.stdin.rest ≠ [] → w.z.session.r.rem = nameLen b)
  other : ct ≠ .invalid → w.z.session.r.type = .pass ∨ w.z.session.r.type = .msg → w.stdin.rest ≠ [] →
    w.z.session.r.rem = MCSTRLEN

section Runs
variable {h : List Iter} {t : Iter}

/-- After a string of which something remains, the input has nothing left. -/
theorem string_ends (hinv : Streams h t.ct t.w) (hstr : Strings t.w.z.session.r.type) (htype : t.w.z.session.r.type = t.ct)
    (hct : t.ct ≠ .invalid) (hrest : (input t.w.stdin t.asks).2.2.rest ≠ [])
    (hrem : t.w.z.session.r.rem - min t.qty t.w.z.session.r.rem ≠ 0) : t.asks = 0 ∧ t.qty = 0 := by
  have hstr' : Strings t.ct := htype ▸ hstr
  have hfull := input_full (Iter.asks_nonneg hstr') hinv.ended hrest
  refine (Iter.qty_full hstr' hfull).resolve_right fun ⟨_, hqty⟩ => hrem ?_
  have := ((hinv.serves.keeps hct).rem hstr).2
  omega

theorem step_streams (hinv : Streams h t.ct t.w) (hok : start.loop.Ok t) : Streams (t :: h) t.nxt t.w' := by
  have hserves := step_serves hinv.serves hok
  rcases Iter.called hinv.serves hok with ⟨-, hnxt, hw⟩ | ⟨hqty, htype, s, dst, v, hread, -, hr, hcurpv, hstdin⟩
  · refine ⟨hserves, ?_, fun h => absurd hnxt h, fun h => absurd hnxt h, fun h => absurd hnxt h⟩
    rw [hw, t.rd_stdin]
    exact input_ended hinv.ended
  have hct := hok.1
  have hpv := (mcsread_frame hread).2.2
  have hrest : t.w'.stdin.rest ≠ [] → t.w.stdin.rest ≠ [] := by
    intro h hnil
    rw [hstdin] at h
    exact h (input_nil hnil)
  refine ⟨hserves, ?_, fun _ hne => ?_, fun _ hname => ?_, fun _ hother hmore => ?_⟩
  · rw [hstdin]
    exact input_ended hinv.ended
  · -- A version that is not known keeps the session at the name.
    rw [hr] at hne
    rw [hcurpv, hpv]
    by_cases hname : t.w.z.session.r.type = .name
    · obtain ⟨b, -, hprobed, -⟩ := hinv.name hct hname
      have hkeep : readpv t.w.z.session t.rd.inbuf t.qty = t.w.z.session.curpv := if_neg fun h => by
        rw [hname] at h
        cases h.1
      rw [hkeep]
      refine ⟨?_, ?_⟩
      · rw [hprobed, probed]
        split <;> omega
      · -- Nothing is read of the name.
        by_contra hbig
        have hstr : Strings t.ct := Or.inl (htype ▸ hname)
        have hasks : t.asks = 0 := ((Iter.asks_string hstr).resolve_right fun h => hbig h.1).2
        have hzero : t.qty ≤ 0 := by
          rw [t.qty_eq, hasks, if_neg (by decide)]
          simp only [input, Int.toNat_zero, List.take_zero, List.length_nil]
          split <;> decide
        have hrem := ((hinv.serves.keeps hct).rem (Or.inl hname)).1
        exact hne ((mcsread_string_more hread (Or.inl hname) (by omega)).trans hname)
    · refine (known_readpv _ _ (hinv.known hct hname)).mpr ?_
      rintro ⟨hver, hone, -, -⟩
      exact hne (mcsread_version hver (by rw [mcctlen_version (hinv.known hct hname)]; exact hone) hread)
  · rw [hr] at hname
    rw [hr, hcurpv, hpv, lastProbe]
    rcases mcsread_string_cases hread (Or.inl hname) with ⟨hsame, hrem, hne⟩ | ⟨hver, -, hlen, hrem⟩ | ⟨hother, -⟩
    · have hname' := hsame.trans hname
      obtain ⟨b, hprobe, hprobed, hlen⟩ := hinv.name hct hname'
      rw [if_neg (by rw [← htype, hname']; simp)]
      refine ⟨b, hprobe, ?_, fun hmore => ?_⟩
      · rw [readpv, if_neg (by rw [hname']; simp), hprobed]
      · obtain ⟨-, hzero⟩ := string_ends hinv (Or.inl hname') htype hct (hstdin ▸ hmore) (hrem ▸ hne)
        rw [hrem, hzero, ← hlen (hrest hmore)]
        have := ((hinv.serves.keeps hct).rem (Or.inl hname')).1
        omega
    · have hone : 0 < t.qty := by
        rw [mcctlen_version (hinv.known hct (by rw [hver]; decide))] at hlen
        omega
      rw [if_pos ⟨htype ▸ hver, hone⟩]
      exact ⟨_, rfl, if_pos ⟨hver, hlen⟩, fun _ => hrem⟩
    · rw [hname] at hother
      rcases hother with h | h <;> cases h
  · rw [hr] at hother ⊢
    rcases mcsread_string_cases hread (Or.inr hother) with ⟨hsame, hrem, hne⟩ | ⟨-, hname, -⟩ | ⟨-, hrem⟩
    · -- The read was full, so that nothing remains.
      have hother' : t.w.z.session.r.type = .pass ∨ t.w.z.session.r.type = .msg := by
        rw [hsame]
        exact hother
      obtain ⟨hzero, -⟩ := string_ends hinv (Or.inr hother') htype hct (hstdin ▸ hmore) (hrem ▸ hne)
      have hpos := mcctlen_pos (hinv.known hct (by rcases hother' with h | h <;> rw [h] <;> decide)) hct
      rw [Iter.asks] at hzero
      omega
    · rw [hname] at hother
      rcases hother with h | h <;> cases h
    · exact hrem

theorem csetup_streams (ldefault : Ptr) (ldsize : Int16) (lddim : Mcvec) (stdin : List UInt8) :
    Streams [] .evtno (csetup (lload ldefault ldsize lddim) stdin) := by
  refine ⟨csetup_serves ldefault ldsize lddim stdin, fun h => ?_, fun _ _ => known_zero, fun _ h => ?_, fun _ h => ?_⟩
  · cases h
  · cases h
  · rcases h with h | h <;> cases h

theorem starts_streams {ldefault : Ptr} {ldsize : Int16} {lddim : Mcvec} {stdin : List UInt8} {s : Mcctyp × World}
    (hrun : Starts ldefault ldsize lddim stdin h s) : Streams h s.1 s.2 :=
  hrun.inv (fun h s => Streams h s.1 s.2) (csetup_streams ldefault ldsize lddim stdin) fun _ _ => step_streams

end Runs

/-! ### Two counts of a string -/

namespace Iter

/-- The bytes newly taken from the input. -/
def taken (t : Iter) : Int := t.w.stdin.rest.length - t.w'.stdin.rest.length

/-- What remains of the string when `mcsread` has read. -/
def remains (t : Iter) : Int := (reads t.w.z.session.r t.rd.inbuf t.qty false).2.2.rem

/-- The input and the reader count the same bytes: a string that is at its end for the reader is at its end on the
    input, and the packet number that is read next is what follows it. -/
structure Synced (t : Iter) : Prop where
  count : t.taken = t.w.z.session.r.rem - t.remains
  done : t.remains = 0 → t.w'.stdin.rest = t.w.stdin.rest.drop t.w.z.session.r.rem.toNat
  next : t.remains = 0 → t.nxt = .evtno → ∀ b ∈ (t.w.stdin.rest.drop t.w.z.session.r.rem.toNat).head?,
    (cloop.read t.w' .evtno).2.inbuf 0 = b

/-- The iteration reads the name of a greeting with version byte 0. -/
def Skips (h : List Iter) (t : Iter) : Prop := t.ct = .name ∧ t.Full ∧ lastProbe h = some 0

end Iter

section Counts
variable {h : List Iter} {t : Iter}

theorem nameLen_eq {b : UInt8} :
    (if 0 = probed b then MCSTRLEN - 1 else MCSTRLEN) = nameLen b ↔ b ≠ 0 := by
  have hlt : 32 > b ↔ b.toNat < 32 := UInt8.lt_iff_toNat_lt
  have hzero : b = 0 ↔ b.toNat = 0 := UInt8.toNat_inj.symm
  rw [ne_eq, hzero, nameLen, probed]
  by_cases hb : 32 > b
  · rw [if_pos hb, if_pos hb]
    split
    · simp [MCSTRLEN]
      omega
    · simp
      omega
  · rw [if_neg hb, if_neg hb, if_pos rfl]
    rw [hlt] at hb
    exact iff_of_true rfl (by omega)

/-- A string that is read in full, by the two counts. -/
theorem asks_iff (hinv : Streams h t.ct t.w) (hct : t.ct ≠ .invalid) (htype : t.w.z.session.r.type = t.ct)
    (hstr : Strings t.ct) (hfull : t.Full) : t.asks = min t.qty t.w.z.session.r.rem ↔ ¬t.Skips h := by
  have hkeeps := hinv.serves.keeps hct
  have hrem := hkeeps.rem (htype ▸ hstr)
  obtain ⟨htakes, -⟩ := input_takes (Iter.asks_nonneg hstr) hfull
  rcases Iter.qty_full hstr hfull with ⟨hasks, hqty⟩ | ⟨hasks, hqty⟩
  · refine iff_of_true (by omega) ?_
    rintro ⟨hname, -, hprobe⟩
    obtain ⟨b, hb, hpv, -⟩ := hinv.name hct (htype.trans hname)
    obtain rfl := Option.some.inj (hprobe.symm.trans hb)
    have hknown : Known t.w.z.session.curpv := hpv ▸ known_zero
    have := mcctlen_pos hknown hct
    rw [Iter.asks] at hasks
    omega
  · have hmore : t.w.stdin.rest ≠ [] := by
      intro h
      rw [h] at htakes
      simp only [List.length_nil] at htakes
      omega
    obtain ⟨-, hlen⟩ := (Iter.asks_string hstr).resolve_left fun h => by omega
    by_cases hname : t.ct = .name
    · obtain ⟨b, hb, hprobed, hnameLen⟩ := hinv.name hct (htype.trans hname)
      have hevt := hkeeps.greeting (htype.trans hname)
      have hskips : t.Skips h ↔ b = 0 := by
        simp only [Iter.Skips, hname, hfull, hb, Option.some.injEq, true_and]
      have hmin : min t.qty t.w.z.session.r.rem = nameLen b := by
        rw [hqty, ← hnameLen hmore]
        exact min_eq_right hrem.2
      rw [hskips, ← ne_eq, ← nameLen_eq, hmin, hlen, hprobed]
      simp only [hevt.symm, hname.symm, and_true]
    · refine iff_of_true ?_ fun h => hname h.1
      rw [hlen, if_neg fun h => hname h.2.2.symm, hqty,
        hinv.other hct (htype ▸ hstr.resolve_left hname) hmore, min_self]

theorem synced_iff (hinv : Streams h t.ct t.w) (hok : start.loop.Ok t) (hstr : Strings t.ct) (hfull : t.Full) :
    t.Synced ↔ ¬t.Skips h := by
  obtain ⟨htakes, hdrop⟩ := input_takes (Iter.asks_nonneg hstr) hfull
  have hasks := Iter.asks_nonneg hstr
  have hpos : 0 ≤ t.qty := by
    rcases Iter.qty_full hstr hfull with ⟨-, h⟩ | ⟨-, h⟩
    · exact h.ge
    · rw [h]
      decide
  obtain ⟨-, htype, s, dst, v, hread, hnxt, hr, -, hstdin⟩ := (Iter.called hinv.serves hok).resolve_left fun h => by omega
  have hrem := ((hinv.serves.keeps hok.1).rem (htype ▸ hstr)).1
  have hremains : t.remains = t.w.z.session.r.rem - min t.qty t.w.z.session.r.rem := rfl
  have htaken : t.taken = t.asks := by
    rw [Iter.taken, hstdin, hdrop, List.length_drop]
    omega
  rw [← asks_iff hinv hok.1 htype hstr hfull]
  constructor
  · rintro ⟨hcount, -, -⟩
    omega
  · intro hsame
    have hdone : t.remains = 0 → t.w'.stdin.rest = t.w.stdin.rest.drop t.w.z.session.r.rem.toNat := by
      intro hz
      rw [hstdin, hdrop]
      congr 2
      omega
    refine ⟨by omega, hdone, fun hz hevtno b hb => ?_⟩
    rw [← hdone hz] at hb
    have htype' : t.w'.z.session.r.type ≠ .name := by
      rcases hnxt with h | ⟨h, -⟩
      · rw [hr, ← h, hevtno]
        decide
      · rw [h] at hstr
        simp [Strings] at hstr
    have hknown := (step_streams hinv hok).known (by rw [hevtno]; decide) htype'
    exact cloop_read_byte (mcctlen_evtno hknown) hb

end Counts

/-- The counts agree exactly where no name of a greeting with version byte 0 is read in full. -/
theorem counts_agree_iff {ldefault : Ptr} {ldsize : Int16} {lddim : Mcvec} {stdin : List UInt8} {h : List Iter}
    {s : Mcctyp × World} (hrun : Starts ldefault ldsize lddim stdin h s) :
    Always (fun _ t => Strings t.ct → t.Full → t.Synced) h ↔ Always (fun h t => ¬t.Skips h) h := by
  refine hrun.always_iff (fun h s => Streams h s.1 s.2) (csetup_streams ldefault ldsize lddim stdin)
    (fun h t hinv hok _ => step_streams hinv hok) fun h t hinv hok => ?_
  constructor
  · rintro hsynced ⟨hct, hfull, hprobe⟩
    exact (synced_iff hinv hok (Or.inl hct) hfull).mp (hsynced (Or.inl hct) hfull) ⟨hct, hfull, hprobe⟩
  · intro hskips hstr hfull
    exact (synced_iff hinv hok hstr hfull).mpr hskips

/-- A greeting of version 1, with its name. -/
theorem counts_agree_iff_greeting : ∃ (h : List Iter) (s : Mcctyp × World),
    Starts (fun _ => 0) 0 {} (0 :: 1 :: List.replicate 64 65) h s ∧ h.length = 3 ∧
    (Always (fun _ t => Strings t.ct → t.Full → t.Synced) h ↔ Always (fun h t => ¬t.Skips h) h) :=
  have hrun := starts_steps (fun _ => 0) 0 {} (0 :: 1 :: List.replicate 64 65) 3
  ⟨_, _, hrun, rfl, counts_agree_iff hrun⟩

/-- A greeting with version byte 0 and a name of 64 bytes: 63 bytes are taken for 64. -/
theorem name_skips : ∃ (h : List Iter) (s : Mcctyp × World),
    Starts (fun _ => 0) 0 {} (0 :: 0 :: List.replicate 64 65) h s ∧
    ¬Always (fun _ t => Strings t.ct → t.Full → t.Synced) h := by
  have hrun := starts_steps (fun _ => 0) 0 {} (0 :: 0 :: List.replicate 64 65) 3
  refine ⟨_, _, hrun, fun hall => ?_⟩
  have hcount := (hall.2 (Or.inl rfl) rfl).count
  revert hcount
  decide

end ClassicX
