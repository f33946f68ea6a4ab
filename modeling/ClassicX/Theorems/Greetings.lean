import ClassicX.Theorems.Driving
import ClassicX.Theorems.Names

/-! A greeting of any version is answered when its last field is read, by one join. -/

namespace ClassicX

/-- The packet is a greeting of version `v` with the name `name`. -/
inductive CPacket.Greets : CPacket → Int → Str → Prop
  | old {name : Str} (printable : 32 ≤ name.val.head!) : Greets (.greeting0 name printable) 0 name
  | new {v : Int} {name pass : Str} {flags : Int8} (known : 1 ≤ v ∧ v ≤ 7) : Greets (.greeting v known name pass flags) v name

def CPacket.secret : CPacket → List UInt8
  | .greeting v _ _ pass flags => if 3 > v then [] else pass.val ++ if 6 > v then [] else writeb flags
  | _ => []

/-- The reader when the name of a greeting was read. -/
def named (v : Int) : Mcseri Mccevt Mcctyp := if 3 > v then ⟨0, .nothing, .evtno⟩ else ⟨MCSTRLEN, .greeting, .pass⟩

section Stages
variable {w : World} {p : CPacket} {v : Int} {name : Str} {rest : List UInt8}

theorem CPacket.Greets.known (h : p.Greets v name) : Known v := by
  cases h with
  | old _ => exact known_zero
  | new known => exact ⟨by omega, known.2⟩

theorem named_old (h : 3 > v) : named v = ⟨0, .nothing, .evtno⟩ := if_pos h

theorem named_new (h : ¬3 > v) : named v = ⟨MCSTRLEN, .greeting, .pass⟩ := if_neg h

theorem CPacket.Greets.ends (hp : p.Greets v name) (h : 3 > v) : p.parts.length - 1 = 2 ∧ p.secret = [] := by
  cases hp with
  | old _ => exact ⟨rfl, rfl⟩
  | new _ => simp [CPacket.parts, CPacket.secret, h]

/-- The number and the byte that follows it. -/
theorem goes_probe {b : UInt8} (hb : AtBoundary w.z.session) (hrest : w.stdin.rest = 0 :: b :: rest) :
    ∃ w', Goes (.evtno, w) 2 (.name, w') ∧ w'.inbuf 0 = b ∧ Fetched w rest { w.z.session with
      curpv := (probes ⟨w.z.session.r.rem, .greeting, .version⟩ b).1
      r := (probes ⟨w.z.session.r.rem, .greeting, .version⟩ b).2 } w' := by
  obtain ⟨w₁, hrun₁, hfetched₁⟩ := cloop_number hb (e := .greeting) rfl (by decide) hrest
  have hsession₁ := hfetched₁.session
  obtain ⟨w₂, hrun₂, hbyte, hfetched₂⟩ := cloop_probe (by rw [hsession₁]; exact hb.pv) (by rw [hsession₁]; rfl) hfetched₁.input
  have hfetched := hfetched₁.trans hfetched₂
  rw [hsession₁] at hfetched
  exact ⟨w₂, ((Goes.refl _).next (by decide) hrun₁).next (by decide) hrun₂, hbyte, hfetched⟩

theorem holds_cons {src : Ptr} {b : UInt8} {bs : List UInt8} (h0 : src 0 = b) : Holds (src.store 1 bs) (b :: bs) := by
  intro i hi
  cases i with
  | zero => exact (if_neg (by simp)).trans h0
  | succ i =>
    have hi : i < bs.length := Nat.lt_of_succ_lt_succ hi
    have hin : (1 : Int) ≤ (i + 1 : ℕ) ∧ ((i + 1 : ℕ) : Int) < 1 + bs.length := by omega
    have hsub : (((i + 1 : ℕ) : Int) - 1).toNat = i := by omega
    simp only [Ptr.store, if_pos hin, hsub, List.getElem_cons_succ]
    rw [List.getD_eq_getElem?_getD, List.getElem?_eq_getElem hi, Option.getD_some]

theorem bytes_greeting (known : 1 ≤ v ∧ v ≤ 7) (name pass : Str) (flags : Int8) :
    (CPacket.greeting v known name pass flags).bytes =
      0 :: UInt8.ofNat v.toNat :: (name.val ++ (CPacket.greeting v known name pass flags).secret) := by
  by_cases h₃ : 3 > v <;> by_cases h₆ : 6 > v <;>
    simp [CPacket.bytes, CPacket.parts, CPacket.secret, numberPart, h₃, h₆]

theorem named_eq (v : Int) (r : Mcseri Mccevt Mcctyp) (hr : r.evt = .greeting) :
    (if 3 > v then rdone { r with rem := 0 } else tchngs { r with rem := 0 } .pass) = named v := by
  rw [named]
  split
  · rfl
  · simp [tchngs, tchng, hr]

/-- The name, which is in `in` from its first character on. -/
theorem goes_name (hp : p.Greets v name) (hb : AtBoundary w.z.session) (hrest : w.stdin.rest = p.bytes ++ rest) :
    ∃ w₁ w₀ w₂, Goes (.evtno, w) 2 (.name, w₁) ∧ w₁.stdout = w.stdout ∧
      (p.secret ++ rest).length < w₁.stdin.rest.length ∧ cloop w₁ .name = ctname w₀ 64 ∧ w₀.mcsread 64 false = some ((named v).type, w₂, none) ∧ Holds w₂.inbuf name.val ∧
      Fetched w (p.secret ++ rest) { w.z.session with curpv := v, r := named v } w₂ := by
  have hname := name.property
  cases hp with
  | old hprint =>
    have hcons : name.val.head! :: name.val.tail = name.val := List.cons_head!_tail fun h => by
      rw [h] at hname
      cases hname
    have htail : name.val.tail.length = 63 := by rw [List.length_tail, hname]
    have hbytes : (CPacket.greeting0 name hprint).bytes = 0 :: name.val.head! :: name.val.tail := by
      simp [CPacket.bytes, CPacket.parts, numberPart]
    rw [hbytes, List.cons_append, List.cons_append] at hrest
    obtain ⟨w₁, hgoes, hbyte, hfetched⟩ := goes_probe hb hrest
    rw [probes_old _ hprint] at hfetched
    have hsession := hfetched.session
    have hlen : mcctlen w₁.z.session .name = name.val.tail.length := by
      rw [htail, hsession]
      rfl
    have hcloop := cloop_fed_name hlen htail hfetched.input
    have hread := mcsread_string_end w₁.z.session (w₁.inbuf.store 1 name.val.tail) 64
      (by rw [hsession]; rfl) (by rw [hsession]; exact (by decide : MCSTRLEN - 1 ≤ 64))
    rw [named_eq _ _ (by rw [hsession])] at hread
    obtain ⟨w₂, hread, hfetched', hinbuf⟩ := fed_fetched rest hread
    refine ⟨w₁, _, w₂, hgoes, hfetched.stdout, ?_, hcloop, ?_, ?_, ?_⟩
    · show rest.length < _
      rw [hfetched.input, List.length_append, htail]
      exact Nat.lt_add_of_pos_left (by decide)
    · rw [hsession] at hread
      exact hread
    · rw [hinbuf, ← hcons]
      exact holds_cons hbyte
    · have hall := hfetched.trans hfetched'
      rw [hsession] at hall
      exact hall
  | @new _ _ pass flags known =>
    rw [bytes_greeting, List.cons_append, List.cons_append, List.append_assoc] at hrest
    obtain ⟨w₁, hgoes, -, hfetched⟩ := goes_probe hb hrest
    rw [probes_ver _ ⟨by omega, known.2⟩] at hfetched
    have hsession := hfetched.session
    have hcurpv : w₁.z.session.curpv = v := by rw [hsession]
    have hlen : mcctlen w₁.z.session .name = 64 := by
      have hmax : MCPVMAX ≥ v := known.2
      simp only [mcctlen, hcurpv, if_pos hmax]
      exact if_neg fun h => by omega
    obtain ⟨w₂, hcloop, hread, hholds, hfetched'⟩ := string_call rfl rfl hlen (by rw [hsession]) (by rw [hsession]; rfl)
      name hfetched.input
    rw [named_eq _ _ (by rw [hsession])] at hread hfetched'
    refine ⟨w₁, _, w₂, hgoes, hfetched.stdout, ?_, hcloop, ?_, hholds, ?_⟩
    · rw [hfetched.input]
      simp only [List.length_append, hname]
      omega
    · rw [hsession] at hread
      exact hread
    · have hall := hfetched.trans hfetched'
      rw [hsession] at hall
      exact hall

/-- What follows the name: the greeting is answered at its end, and not before. -/
theorem goes_secret (hp : p.Greets v name) (h₃ : ¬3 > v) (hcurpv : w.z.session.curpv = v) (hr : w.z.session.r = named v)
    (hrest : w.stdin.rest = p.secret ++ rest) :
    ∃ k ct w₁ w₂, p.parts.length = 3 + k + 1 ∧ Goes (.pass, w) k (ct, w₁) ∧ ct ≠ .invalid ∧ w₁.stdout = w.stdout ∧
      rest.length < w₁.stdin.rest.length ∧ cloop w₁ ct = respond w₂ .evtno ∧
      ∃ s, Fetched w rest s w₂ ∧ AtBoundary s ∧ s.w = w.z.session.w ∧ s.curpv = v := by
  have hpv := hp.known
  cases hp with
  | old _ => exact absurd (by decide : (3 : Int) > 0) h₃
  | @new _ _ pass flags known =>
    have hpass := pass.property
    rw [named_new h₃] at hr
    have hlen : mcctlen w.z.session .pass = 64 := mcctlen_eq (by rw [hcurpv]; exact hpv.2) (by decide)
    by_cases h₆ : 6 > v
    · rw [CPacket.secret, if_neg h₃, if_pos h₆, List.append_nil] at hrest
      obtain ⟨w₂, hcloop, hread, -, hfetched⟩ := string_call rfl rfl hlen (by rw [hr]) (by rw [hr]; rfl) pass hrest
      simp only [hcurpv, if_pos h₆] at hread hfetched
      refine ⟨0, .pass, w, w₂, ?_, Goes.refl _, by decide, rfl, ?_, ?_, _, hfetched, ⟨rfl, rfl, hpv⟩, rfl, rfl⟩
      · simp [CPacket.parts, h₃, h₆]
      · rw [hrest, List.length_append]
        omega
      · rw [hcloop]
        simp only [ctpass, hread, Option.bind_eq_bind, Option.bind_some]
        rfl
    · rw [CPacket.secret, if_neg h₃, if_neg h₆, List.append_assoc] at hrest
      obtain ⟨w₁, hcloop, hread, -, hfetched⟩ := string_call rfl rfl hlen (by rw [hr]) (by rw [hr]; rfl) pass hrest
      simp only [hcurpv, if_neg h₆] at hread hfetched
      have hsession := hfetched.session
      have hpv₁ : w₁.z.session.curpv ≤ MCPVMAX := by
        rw [hsession]
        exact hpv.2
      have hlen₁ : mcctlen w₁.z.session .cflgs = (writeb flags).length := mcctlen_eq hpv₁ (by decide)
      have hcloop₁ := cloop_fed .cflgs rfl hlen₁ (by simp) (by simp [writeb]) hfetched.input
      obtain ⟨w₂, hread₁, hfetched₁, -⟩ := fed_fetched rest (mcsread_cflgs hpv₁ (by rw [hsession]; rfl)
        (holds_store w₁.inbuf (writeb flags)))
      have hrun : cloop w .pass = some (.cflgs, w₁) := by
        rw [hcloop]
        simp only [ctpass, hread, Option.bind_eq_bind, Option.bind_some]
        exact respond_silent (by simp [tchng])
      refine ⟨1, .cflgs, w₁, w₂, ?_, (Goes.refl _).next (by decide) hrun, by decide, hfetched.stdout, ?_, ?_, _,
        hfetched.trans hfetched₁, ?_, ?_, ?_⟩
      · simp [CPacket.parts, h₃, h₆]
      · rw [hfetched.input, List.length_append, length_writeb]
        omega
      · rw [hcloop₁]
        simp only [ctcflg, length_writeb, Nat.cast_one, hread₁, Option.bind_eq_bind, Option.bind_some]
      all_goals rw [hsession]
      exact ⟨rfl, rfl, hpv⟩

end Stages

/-! ### Names -/

section Save
variable {w : World} {name : Str}

theorem long_trimmed (h : Holds w.inbuf name.val) : Long w.inbuf ↔ 20 < trimmed name.val := by
  rw [← take_str h, lt_trimmed_take]
  rfl

theorem last_trimmed (h : Holds w.inbuf name.val) (hpos : 1 ≤ trimmed name.val) :
    strim.last w.inbuf 64 + 1 = trimmed name.val := by
  rw [last_eq, take_str h]
  omega

theorem save_name (h : Holds w.inbuf name.val) (hpos : 1 ≤ trimmed name.val) (hshort : trimmed name.val ≤ 20) :
    ∃ buf, (ctname.save w).2.z.cent.enam = some buf ∧ buf.take (trimmed name.val) = name.val.take (trimmed name.val) ∧
      (ctname.save w).2.z.cent.enln = trimmed name.val := by
  have hlen : trimmed name.val ≤ name.val.length := by
    rw [name.property]
    omega
  have hno : ¬((trimmed name.val : ℕ) : Int) > 20 := by omega
  have hstrim : strim w.nbuf w.inbuf 20 = ((trimmed name.val : Int),
      w.nbuf.store 0 (w.inbuf.take (trimmed name.val) ++ [0])) := by
    simp only [strim, last_trimmed h hpos, if_neg hno]
  refine ⟨w.nbuf.store 0 (w.inbuf.take (trimmed name.val) ++ [0]), ?_, ?_, ?_⟩
  · simp only [ctname.save, strim_stdc, hstrim]
    rfl
  · rw [take_holds (holds_store _ _) (by simp [length_take]), ← take_holds h hlen,
      List.take_left' (length_take _ _)]
  · simp only [ctname.save, strim_stdc, hstrim]
    rfl

end Save

/-! ### The answer -/

/-- The player of a greeting with the name `name` takes part, and what is left of the input is `rest`. -/
structure Greeted (v : Int) (name : Str) (rest : List UInt8) (w : World) : Prop where
  enam : ∃ buf, w.z.cent.enam = some buf ∧ buf.take (trimmed name.val) = name.val.take (trimmed name.val)
  enln : w.z.cent.enln = trimmed name.val
  curpv : w.z.session.curpv = v
  flg : w.z.flg = 1
  rest : w.stdin.rest = rest
  boundary : AtBoundary w.z.session
  idle : w.z.session.Idle

section Answers
variable {w : World} {p : CPacket} {v : Int} {name : Str} {rest : List UInt8}

theorem respond_joins (hidle : w.z.session.Idle) (henam : w.z.cent.enam ≠ none) (hlevel : w.z.lcur.filelen ≤ 32767) :
    ∃ w', respond w .evtno = some (.evtno, w') ∧ initseq w = some (0, w') ∧
      w'.stdout = w.stdout ++ (transcript w.z.session.curpv w.z.lcur).flatten ∧ w'.z.cent = w.z.cent ∧ w'.z.flg = 1 ∧
      w'.kept = w.kept ∧ w'.z.session.Idle := by
  obtain ⟨w', hr, hspoke⟩ := initseq_says hidle henam hlevel
  refine ⟨w', ?_, hr, ?_, hspoke.cent, ?_, (hspoke.replies (joins_sendable _ _)).kept, hspoke.idle⟩
  · simp only [respond, ne_eq, not_true_eq_false, if_false, hr, Option.bind_eq_bind, Option.bind_some, Mcctyp.unless]
  · rw [← wire_joins]
    exact hspoke.out
  · rw [hspoke.frame]
    rfl

/-- Driving a greeting: nothing is given away before its last field, which is answered by `initseq`. -/
theorem greeting_joins (hp : p.Greets v name) (hpos : 1 ≤ trimmed name.val) (hshort : trimmed name.val ≤ 20)
    (hb : AtBoundary w.z.session) (hidle : w.z.session.Idle) (hlevel : w.z.lcur.filelen ≤ 32767)
    (hrest : w.stdin.rest = p.bytes ++ rest) :
    ∃ ct w₁ w₂ w', Goes (.evtno, w) (p.parts.length - 1) (ct, w₁) ∧ ct ≠ .invalid ∧ w₁.stdout = w.stdout ∧
      rest.length < w₁.stdin.rest.length ∧ cloop w₁ ct = some (.evtno, w') ∧ initseq w₂ = some (0, w') ∧
      w₂.stdout = w.stdout ∧ w'.stdout = w.stdout ++ (transcript v w.z.lcur).flatten ∧ Greeted v name rest w' := by
  obtain ⟨w₁, w₀, w₂, hgoes, hsilent, hmore, hcloop, hread, hholds, hfetched⟩ := goes_name hp hb hrest
  have hlong : ¬Long w₂.inbuf := by
    intro h
    rw [long_trimmed hholds] at h
    omega
  obtain ⟨buf, henam, htake, henln⟩ := save_name hholds hpos hshort
  rw [ctname_short hread hlong] at hcloop
  have hsession : (ctname.save w₂).2.z.session = { w.z.session with curpv := v, r := named v } := hfetched.session
  have hlcur : (ctname.save w₂).2.z.lcur = w.z.lcur := hfetched.lcur
  have hout : (ctname.save w₂).2.stdout = w.stdout := hfetched.stdout
  have hstdin : (ctname.save w₂).2.stdin.rest = p.secret ++ rest := hfetched.input
  generalize (ctname.save w₂).2 = w₃ at *
  -- The join is answered in a state that has the name, and the session at the end of the packet.
  have hanswer : ∀ w₂ : World, w₂.z.cent = w₃.z.cent → w₂.z.lcur = w.z.lcur → w₂.stdout = w.stdout →
      w₂.stdin.rest = rest → AtBoundary w₂.z.session → w₂.z.session.w = w.z.session.w → w₂.z.session.curpv = v →
      ∃ w', respond w₂ .evtno = some (.evtno, w') ∧ initseq w₂ = some (0, w') ∧
        w'.stdout = w.stdout ++ (transcript v w.z.lcur).flatten ∧ Greeted v name rest w' := by
    intro w₂ hcent hlcur hout hinput hbound hw hcurpv
    have hidle₂ : w₂.z.session.Idle := by
      rw [Mcx.Idle, hw]
      exact hidle
    obtain ⟨w', hr, hinitseq, hstdout, hcent', hflg, hkept, hidle'⟩ := respond_joins hidle₂ (by rw [hcent, henam]; simp)
      (by rw [hlcur]; exact hlevel)
    rw [hcurpv, hlcur, hout] at hstdout
    have hr' : w'.z.session.r = w₂.z.session.r := kept_reader hkept
    have hcurpv' : w'.z.session.curpv = w₂.z.session.curpv := kept_curpv hkept
    have hinput' : w'.stdin = w₂.stdin := kept_stdin hkept
    refine ⟨w', hr, hinitseq, hstdout, ⟨⟨buf, ?_, htake⟩, ?_, hcurpv'.trans hcurpv, hflg, hinput' ▸ hinput, ?_, hidle'⟩⟩
    · rw [hcent', hcent, henam]
    · rw [hcent', hcent, henln]
    · exact ⟨hr' ▸ hbound.evt, hr' ▸ hbound.type, hcurpv' ▸ hbound.pv⟩
  by_cases h₃ : 3 > v
  · obtain ⟨hparts, hsecret⟩ := hp.ends h₃
    rw [hsecret, List.nil_append] at hmore hstdin
    rw [named_old h₃] at hcloop hsession
    obtain ⟨w', hr, hinitseq, hstdout, hgreeted⟩ := hanswer w₃ rfl hlcur hout hstdin
      (by rw [hsession]; exact ⟨rfl, rfl, hp.known⟩) (by rw [hsession]) (by rw [hsession])
    rw [hparts]
    exact ⟨.name, w₁, w₃, w', hgoes, by decide, hsilent, hmore, hcloop.trans hr, hinitseq, hout, hstdout, hgreeted⟩
  · have htype : (named v).type = .pass := by rw [named_new h₃]
    rw [htype, respond_silent (by decide)] at hcloop
    obtain ⟨k, ct, w₄, w₅, hlen, hgoes', hct, hsilent', hmore', hcloop', s, hfetched', hbound, hw, hcurpv⟩ :=
      goes_secret hp h₃ (by rw [hsession]) (by rw [hsession]) hstdin
    have hsession' := hfetched'.session
    obtain ⟨w', hr, hinitseq, hstdout, hgreeted⟩ := hanswer w₅ hfetched'.cent (hfetched'.lcur.trans hlcur)
      (hfetched'.stdout.trans hout) hfetched'.input (hsession' ▸ hbound) (by rw [hsession', hw, hsession])
      (by rw [hsession', hcurpv])
    have hall : Goes (.evtno, w) (3 + k) (ct, w₄) := (hgoes.next (by decide) hcloop).trans hgoes'
    rw [hlen, Nat.add_sub_cancel]
    exact ⟨ct, w₄, w₅, w', hall, hct, hsilent'.trans hout, hmore', hcloop'.trans hr, hinitseq, hfetched'.stdout.trans hout,
      hstdout, hgreeted⟩

/-- A greeting of version 7 with the name "A". -/
theorem greeting_joins_seven : ∃ (p : CPacket) (name : Str) (w w₁ w' : World) (ct : Mcctyp), p.Greets 7 name ∧
    trimmed name.val = 1 ∧ w.stdin.rest = p.bytes ++ [] ∧ Goes (.evtno, w) 4 (ct, w₁) ∧ cloop w₁ ct = some (.evtno, w') ∧
    Greeted 7 name [] w' := by
  have hp : CPacket.Greets (.greeting 7 (by decide) ⟨65 :: List.replicate 63 0x20, rfl⟩ ⟨List.replicate 64 0x20, rfl⟩ 0) 7
      ⟨65 :: List.replicate 63 0x20, rfl⟩ := .new _
  obtain ⟨ct, w₁, w₂, w', hgoes, -, -, -, hrun, -, -, -, hgreeted⟩ := greeting_joins
    (w := csetup (lload (fun _ => 0) 0 {}) (CPacket.bytes (.greeting 7 (by decide) ⟨65 :: List.replicate 63 0x20, rfl⟩
      ⟨List.replicate 64 0x20, rfl⟩ 0))) hp (by decide) (by decide)
    ⟨rfl, rfl, by decide⟩ ⟨rfl, rfl⟩ (by decide) (List.append_nil _).symm
  exact ⟨_, _, _, w₁, w', ct, hp, by decide, (List.append_nil _).symm, hgoes, hrun, hgreeted⟩

end Answers

end ClassicX
