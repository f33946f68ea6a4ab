import ClassicX.Theorems.Parsing
import ClassicX.Theorems.Said

/-! A packet that is on the input is read one field an iteration, and answered when its last field is read. -/

namespace ClassicX
open Runs (Run)

/-- A run of `n` iterations leads from one state to the other. -/
def Goes [P : Platform] (s : Mcctyp × World) (n : ℕ) (s' : Mcctyp × World) : Prop := ∃ h, Run start.loop s h s' ∧ h.length = n

section Goes
variable [P : Platform] {s s' s'' : Mcctyp × World} {ct : Mcctyp} {w : World} {n : ℕ}

theorem Goes.refl (s : Mcctyp × World) : Goes s 0 s := ⟨[], .start, rfl⟩

theorem Goes.next (h : Goes s n (ct, w)) (hct : ct ≠ .invalid) (hrun : cloop w ct = some s') : Goes s (n + 1) s' := by
  obtain ⟨h, hruns, hlen⟩ := h
  have hok : start.loop.Ok ⟨ct, w, s'.1, s'.2⟩ := ⟨hct, hrun⟩
  exact ⟨_, Run.next (S := start.loop) _ hruns hok, by rw [List.length_cons, hlen]⟩

theorem Goes.trans {m : ℕ} (h : Goes s n s') (h' : Goes s' m s'') : Goes s (n + m) s'' := by
  obtain ⟨h', hruns', rfl⟩ := h'
  induction hruns' with
  | start => exact h
  | next t _ hok ih =>
    obtain ⟨hct, hrun⟩ := hok
    exact ih.next hct hrun

theorem Goes.det (h : Goes s n s') (h' : Goes s n s'') : s' = s'' := by
  obtain ⟨h, hruns, hlen⟩ := h
  obtain ⟨h', hruns', hlen'⟩ := h'
  refine hruns.det (fun t t' hpre hok hok' => ?_) hruns' (hlen.trans hlen'.symm)
  obtain ⟨hct, hw⟩ := Prod.mk.inj hpre
  exact Option.some.inj (hok.2.symm.trans ((hct ▸ hw ▸ hok'.2)))

end Goes

/-! ### One field -/

/-- The bytes of a field are in `in` from `n` on, and off the input. -/
def World.fed (w : World) (n : Int) (bs rest : List UInt8) : World :=
  { w with inbuf := w.inbuf.store n bs, stdin := ⟨rest, w.stdin.eof⟩ }

/-- The state `w` but for what was read: what is left of the input, and the session. -/
def Fetched (w : World) (rest : List UInt8) (s : Mcx) (w' : World) : Prop :=
  w' = { w.withSession s with inbuf := w'.inbuf, stdin := ⟨rest, w.stdin.eof⟩ }

section Fields
variable {w w' w'' : World} {n : Int} {bs rest rest' : List UInt8} {s s' : Mcx} {ct : Mcctyp}

theorem Fetched.session (h : Fetched w rest s w') : w'.z.session = s := by
  rw [h]
  rfl

theorem Fetched.input (h : Fetched w rest s w') : w'.stdin.rest = rest := by rw [h]

theorem Fetched.stdout (h : Fetched w rest s w') : w'.stdout = w.stdout := by
  rw [h]
  rfl

theorem Fetched.trans (h : Fetched w rest s w') (h' : Fetched w' rest' s' w'') : Fetched w rest' s' w'' := by
  rw [Fetched] at h h'
  rw [h] at h'
  exact h'

theorem Fetched.cent (h : Fetched w rest s w') : w'.z.cent = w.z.cent := by
  rw [h]
  rfl

theorem Fetched.lcur (h : Fetched w rest s w') : w'.z.lcur = w.z.lcur := by
  rw [h]
  rfl

theorem holds_store (p : Ptr) (bs : List UInt8) : Holds (p.store 0 bs) bs := by
  intro i hi
  have hin : (0 : Int) ≤ i ∧ (i : Int) < 0 + bs.length := by omega
  simp only [Ptr.store, if_pos hin]
  rw [sub_zero, Int.toNat_natCast, List.getD_eq_getElem?_getD, List.getElem?_eq_getElem hi, Option.getD_some]

theorem take_holds {p : Ptr} {bs : List UInt8} (h : Holds p bs) {n : ℕ} (hn : n ≤ bs.length) : p.take n = bs.take n := by
  refine List.ext_getElem (by simp [Ptr.take, Fields.piece, hn]) fun i h₁ h₂ => ?_
  have hi : i < bs.length := by
    rw [List.length_take] at h₂
    omega
  simp [Ptr.take, Fields.piece, h i hi]

theorem take_str {p : Ptr} {str : Str} (h : Holds p str.val) : p.take 64 = str.val := by
  rw [take_holds h str.property.ge, List.take_of_length_le str.property.le]

theorem input_all {stdin : Stdin} (hne : bs ≠ []) (hrest : stdin.rest = bs ++ rest) :
    input stdin bs.length = ((bs.length : Int), bs, (⟨rest, stdin.eof⟩ : Stdin)) := by
  simp [input, hrest, hne]

theorem cloop_fed (ct : Mcctyp) {f : World → Int → Option (Mcctyp × World)} (hf : handler ct = some f)
    (hlen : mcctlen w.z.session ct = bs.length) (hshort : bs.length ≠ 63) (hne : bs ≠ []) (hrest : w.stdin.rest = bs ++ rest) :
    cloop w ct = f (w.fed 0 bs rest) bs.length := by
  have hno : ¬MCSTRLEN - 1 = (bs.length : Int) := fun h => hshort (by rw [MCSTRLEN] at h; omega)
  have hpos : ¬0 > (bs.length : Int) := by omega
  simp only [cloop, cloop.read, hlen, input_all hne hrest, if_neg hno, if_neg hpos, hf, Option.bind_eq_bind, Option.bind_some,
    World.fed]

/-- The name of a version 0 greeting goes after its first character. -/
theorem cloop_fed_name (hlen : mcctlen w.z.session .name = bs.length) (hshort : bs.length = 63)
    (hrest : w.stdin.rest = bs ++ rest) : cloop w .name = ctname (w.fed 1 bs rest) 64 := by
  have hne : bs ≠ [] := by
    intro h
    rw [h] at hshort
    cases hshort
  have hyes : MCSTRLEN - 1 = (bs.length : Int) := by
    rw [MCSTRLEN]
    omega
  have hinput := input_all hne hrest
  rw [hshort] at hinput hyes
  rw [hshort] at hlen
  simp only [cloop, cloop.read, hlen, hinput, if_pos hyes, handler, Option.bind_eq_bind, Option.bind_some, World.fed]
  rfl

theorem World.mcsread_of {qty : Int} {dst : Bool} {t : Mcctyp} {v : Option Val}
    (h : ClassicX.mcsread w.z.session w.inbuf qty dst = some (t, s, v)) : w.mcsread qty dst = some (t, w.withSession s, v) := by
  simp only [World.mcsread, h, Option.bind_eq_bind, Option.bind_some]

theorem fed_fetched (rest : List UInt8) {qty : Int} {dst : Bool} {t : Mcctyp} {v : Option Val}
    (h : ClassicX.mcsread w.z.session (w.inbuf.store n bs) qty dst = some (t, s, v)) :
    ∃ w', (w.fed n bs rest).mcsread qty dst = some (t, w', v) ∧ Fetched w rest s w' ∧ w'.inbuf = w.inbuf.store n bs :=
  ⟨(w.fed n bs rest).withSession s, World.mcsread_of h, rfl, rfl⟩

theorem cloop_number {num : UInt8} {e : Mccevt} (hb : AtBoundary w.z.session) (hnum : cedecode num.toNat = e)
    (he : e ≠ .nothing) (hrest : w.stdin.rest = num :: rest) :
    ∃ w', cloop w .evtno = some (ten e, w') ∧ Fetched w rest { w.z.session with r := ⟨w.z.session.r.rem, e, ten e⟩ } w' := by
  have hcloop := cloop_fed .evtno rfl (mcctlen_evtno hb.pv) (by simp) (by simp)
    (show w.stdin.rest = [num] ++ rest from hrest)
  have hsrc : w.inbuf.store 0 [num] 0 = num := holds_store w.inbuf [num] 0 (by simp)
  rw [← hsrc] at hnum
  obtain ⟨w', hread, hfetched, -⟩ := fed_fetched rest (mcsread_number e hb hnum he)
  refine ⟨w', ?_, hfetched⟩
  rw [hcloop]
  simp only [ctevtno, List.length_singleton, Nat.cast_one, hread, Option.bind_eq_bind, Option.bind_some]

theorem cloop_probe {b : UInt8} (hpv : Known w.z.session.curpv) (ht : w.z.session.r.type = .version)
    (hrest : w.stdin.rest = b :: rest) :
    ∃ w', cloop w .version = some (.name, w') ∧ w'.inbuf 0 = b ∧ Fetched w rest { w.z.session with
      curpv := (probes w.z.session.r b).1, r := (probes w.z.session.r b).2 } w' := by
  have hcloop := cloop_fed .version rfl (mcctlen_version hpv) (by simp) (by simp)
    (show w.stdin.rest = [b] ++ rest from hrest)
  have hsrc : w.inbuf.store 0 [b] 0 = b := holds_store w.inbuf [b] 0 (by simp)
  have hmcsread := mcsread_probe (w.inbuf.store 0 [b]) hpv.2 ht
  rw [hsrc] at hmcsread
  obtain ⟨w', hread, hfetched, hinbuf⟩ := fed_fetched rest hmcsread
  refine ⟨w', ?_, hinbuf ▸ hsrc, hfetched⟩
  rw [hcloop]
  simp only [ctversion, List.length_singleton, Nat.cast_one, hread, Option.bind_eq_bind, Option.bind_some]

theorem cloop_actrno (tup : Mcseri Mccevt Mcctyp → Mcseri Mccevt Mcctyp) {eno : Int8} (hpv : Known w.z.session.curpv)
    (ht : w.z.session.r.type = .actrno) (htup : ctup w.z.session.r.evt = some tup) (hrest : w.stdin.rest = writeb eno ++ rest) :
    ∃ w', cloop w .actrno = some ((tup w.z.session.r).type, w') ∧
      Fetched w rest { w.z.session with r := tup w.z.session.r } w' := by
  have hlen : mcctlen w.z.session .actrno = (writeb eno).length := mcctlen_eq hpv.2 (by decide)
  have hcloop := cloop_fed .actrno rfl hlen (by rw [length_writeb]; decide) (by simp [writeb]) hrest
  obtain ⟨w', hread, hfetched, -⟩ := fed_fetched rest
    (mcsread_actrno false hpv.2 ht htup (holds_store w.inbuf (writeb eno)))
  refine ⟨w', ?_, hfetched⟩
  rw [hcloop]
  simp only [ctactrno, length_writeb, Nat.cast_one, hread, Option.bind_eq_bind, Option.bind_some]

theorem mcsread_string_end (s : Mcx) (src : Ptr) (qty : Int) {next : Int → Mcseri Mccevt Mcctyp → Mcseri Mccevt Mcctyp}
    (hrd : ctrd s.r.type = some (rctString next)) (hqty : s.r.rem ≤ qty) :
    ClassicX.mcsread s src qty false = some ((next s.curpv { s.r with rem := 0 }).type,
      { s with r := next s.curpv { s.r with rem := 0 } }, none) := by
  have hmin : min qty s.r.rem = s.r.rem := min_eq_right hqty
  simp only [ClassicX.mcsread, hrd, rctString_eq, took, hmin, sub_self, if_true, Option.bind_eq_bind, Option.bind_some]
  rfl

theorem string_call {f : World → Int → Option (Mcctyp × World)} {next : Int → Mcseri Mccevt Mcctyp → Mcseri Mccevt Mcctyp}
    (hf : handler ct = some f) (hrd : ctrd ct = some (rctString next)) (hlen : mcctlen w.z.session ct = 64)
    (ht : w.z.session.r.type = ct) (hrem : w.z.session.r.rem = 64) (str : Str) (hrest : w.stdin.rest = str.val ++ rest) :
    ∃ w', cloop w ct = f (w.fed 0 str.val rest) 64 ∧
      (w.fed 0 str.val rest).mcsread 64 false =
        some ((next w.z.session.curpv { w.z.session.r with rem := 0 }).type, w', none) ∧
      Holds w'.inbuf str.val ∧
      Fetched w rest { w.z.session with r := next w.z.session.curpv { w.z.session.r with rem := 0 } } w' := by
  have hstr := str.property
  have hne : str.val ≠ [] := by
    intro h
    rw [h] at hstr
    cases hstr
  have hcloop := cloop_fed ct hf (by rw [hlen, hstr]; rfl) (by rw [hstr]; decide) hne hrest
  rw [hstr] at hcloop
  obtain ⟨w', hread, hfetched, hinbuf⟩ := fed_fetched rest
    (mcsread_string_end w.z.session (w.inbuf.store 0 str.val) 64 (ht.symm ▸ hrd) hrem.le)
  exact ⟨w', hcloop, hread, hinbuf ▸ holds_store _ _, hfetched⟩

end Fields

/-! ### One packet -/

/-- From the type `ct₀` and the state `w` on, `k` silent iterations lead to the field of type `ct`, which the handler `f` is
    called with in the state `w₁`. It finds the end of the packet, and the state `w₂`. -/
structure Delivered (ct₀ : Mcctyp) (w : World) (k : ℕ) (rest : List UInt8) (ct : Mcctyp)
    (f : World → Int → Option (Mcctyp × World)) (qty : Int) (dst : Bool) (v : Option Val) (pv : Int) (w₁ w₂ : World) : Prop where
  goes : Goes (ct₀, w) k (ct, w₁)
  silent : w₁.stdout = w.stdout
  call : ∃ w₀, cloop w₁ ct = f w₀ qty ∧ w₀.mcsread qty dst = some (.evtno, w₂, v)
  fetched : ∃ s, Fetched w rest s w₂ ∧ AtBoundary s ∧ s.w = w.z.session.w ∧ s.curpv = pv

section Answers
variable {w w₁ w₂ : World} {rest : List UInt8} {ct : Mcctyp} {k : ℕ} {f : World → Int → Option (Mcctyp × World)} {qty : Int}
  {dst : Bool} {v : Option Val} {pv : Int} {es : List Sent} (h : Delivered .evtno w k rest ct f qty dst v pv w₁ w₂)
include h

theorem Delivered.cent : w₂.z.cent = w.z.cent := by
  obtain ⟨s, hfetched, -⟩ := h.fetched
  exact hfetched.cent

theorem Delivered.idle (hidle : w.z.session.Idle) : w₂.z.session.Idle := by
  obtain ⟨s, hfetched, -, hs, -⟩ := h.fetched
  rw [Mcx.Idle, hfetched.session, hs]
  exact hidle

/-- The answer of a handler that was called with the last field of a packet. -/
theorem Delivered.answered (hct : ct ≠ .invalid)
    (hanswer : ∀ {w₀}, w₀.mcsread qty dst = some (.evtno, w₂, v) → ∃ w', f w₀ qty = some (.evtno, w') ∧ Says w₂ es w') :
    ∃ w', Goes (.evtno, w) (k + 1) (.evtno, w') ∧ w'.stdout = w.stdout ++ (wire pv es).flatten ∧ w'.stdin.rest = rest ∧
      AtBoundary w'.z.session ∧ w'.z.session.Idle := by
  obtain ⟨w₀, hcloop, hread⟩ := h.call
  obtain ⟨s, hfetched, hb, -, hpv⟩ := h.fetched
  obtain ⟨w', hr, hspoke⟩ := hanswer hread
  have hsession := hfetched.session
  have hreader : w'.z.session.r = s.r := by
    rw [hspoke.frame]
    exact (congrArg Mcx.r hsession : w₂.z.session.r = s.r)
  have hcurpv : w'.z.session.curpv = s.curpv := by rw [hspoke.curpv, hsession]
  refine ⟨w', h.goes.next hct (hcloop.trans hr), ?_, ?_, ⟨?_, ?_, ?_⟩, hspoke.idle⟩
  · rw [hspoke.out, hfetched.stdout, hsession, hpv]
  · rw [hspoke.frame]
    exact hfetched.input
  · rw [hreader]
    exact hb.evt
  · rw [hreader]
    exact hb.type
  · rw [hcurpv]
    exact hb.pv

end Answers

@[simp] theorem Part.bytes_fixed (t : Mcctyp) (bs : List UInt8) (v : Val) : (Part.fixed t bs v).bytes = bs := rfl

@[simp] theorem Part.bytes_string (t : Mcctyp) (bs : List UInt8) : (Part.string t bs).bytes = bs := rfl

theorem bytes_blkedit (upd : Mcbup) :
    (CPacket.blkedit upd).bytes = 5 :: (writevec upd.bpos ++ writeb upd.umod ++ writeb upd.bnew) := by
  simp [CPacket.bytes, CPacket.parts, numberPart]

theorem bytes_plyrstat (eno : Int8) (epos : Mcvec) (head : Mchead) :
    (CPacket.plyrstat eno epos head).bytes = 8 :: (writeb eno ++ (writevec epos ++ write2u head)) := by
  simp [CPacket.bytes, CPacket.parts, numberPart]

theorem bytes_chatmsg (eno : Int8) (msg : Str) : (CPacket.chatmsg eno msg).bytes = 13 :: (writeb eno ++ msg.val) := by
  simp [CPacket.bytes, CPacket.parts, numberPart]

section Packets
variable {w : World} {rest : List UInt8}

theorem blkedit_delivered {upd : Mcbup} (hb : AtBoundary w.z.session) (hrest : w.stdin.rest = (CPacket.blkedit upd).bytes ++ rest) :
    ∃ w₁ w₂, Delivered .evtno w 1 rest .blkch ctblkch 8 true (some (.bup upd)) w.z.session.curpv w₁ w₂ := by
  rw [bytes_blkedit, List.cons_append] at hrest
  obtain ⟨w₁, hrun, hfetched⟩ := cloop_number hb (e := .blkedit) rfl (by decide) hrest
  have hsession := hfetched.session
  have hpv : w₁.z.session.curpv ≤ MCPVMAX := by
    rw [hsession]
    exact hb.pv.2
  have ht : w₁.z.session.r.type = .blkch := by
    rw [hsession]
    rfl
  have hlen : mcctlen w₁.z.session .blkch = (writevec upd.bpos ++ writeb upd.umod ++ writeb upd.bnew).length :=
    mcctlen_eq hpv (by decide)
  have hcloop := cloop_fed .blkch rfl hlen (by simp) (by simp [writeb]) hfetched.input
  obtain ⟨w₂, hread, hfetched', -⟩ := fed_fetched rest (mcsread_blkch hpv ht (holds_store w₁.inbuf _))
  refine ⟨w₁, w₂, (Goes.refl _).next (by decide) hrun, hfetched.stdout, ⟨_, hcloop, hread⟩,
    ⟨_, hfetched.trans hfetched', ?_, ?_, ?_⟩⟩
  all_goals rw [hsession]
  exact ⟨rfl, rfl, hb.pv⟩

theorem plyrstat_delivered {eno : Int8} {epos : Mcvec} {head : Mchead} (hb : AtBoundary w.z.session)
    (hrest : w.stdin.rest = (CPacket.plyrstat eno epos head).bytes ++ rest) :
    ∃ w₁ w₂, Delivered .evtno w 2 rest .actrstat ctactrstat 8 true (some (.stat epos head)) w.z.session.curpv w₁ w₂ := by
  rw [bytes_plyrstat, List.cons_append, List.append_assoc] at hrest
  obtain ⟨w₁, hrun₁, hfetched₁⟩ := cloop_number hb (e := .plyrstat) rfl (by decide) hrest
  have hsession₁ := hfetched₁.session
  obtain ⟨w₂, hrun₂, hfetched₂⟩ := cloop_actrno (w := w₁) (tchng · .actrstat) (by rw [hsession₁]; exact hb.pv)
    (by rw [hsession₁]; rfl) (by rw [hsession₁]; rfl) hfetched₁.input
  have hsession₂ := hfetched₂.session
  rw [hsession₁] at hsession₂
  have hpv : w₂.z.session.curpv ≤ MCPVMAX := by
    rw [hsession₂]
    exact hb.pv.2
  have ht : w₂.z.session.r.type = .actrstat := by
    rw [hsession₂]
    rfl
  have hlen : mcctlen w₂.z.session .actrstat = (writevec epos ++ write2u head).length := mcctlen_eq hpv (by decide)
  have hcloop := cloop_fed .actrstat rfl hlen (by simp) (by simp [writevec, writei])
    hfetched₂.input
  obtain ⟨w₃, hread, hfetched₃, -⟩ := fed_fetched rest (mcsread_stat hpv ht (holds_store w₂.inbuf _))
  have htype : (tchng w₁.z.session.r .actrstat).type = .actrstat := rfl
  rw [htype] at hrun₂
  refine ⟨w₂, w₃, ((Goes.refl _).next (by decide) hrun₁).next (by decide) hrun₂, hfetched₂.stdout.trans hfetched₁.stdout,
    ⟨_, hcloop, hread⟩, ⟨_, (hfetched₁.trans hfetched₂).trans hfetched₃, ?_, ?_, ?_⟩⟩
  all_goals rw [hsession₂]
  exact ⟨rfl, rfl, hb.pv⟩

theorem chatmsg_delivered {eno : Int8} {msg : Str} (hb : AtBoundary w.z.session)
    (hrest : w.stdin.rest = (CPacket.chatmsg eno msg).bytes ++ rest) :
    ∃ w₁ w₂, Delivered .evtno w 2 rest .msg ctmsg 64 false none w.z.session.curpv w₁ w₂ ∧ Holds w₂.inbuf msg.val := by
  rw [bytes_chatmsg, List.cons_append, List.append_assoc] at hrest
  obtain ⟨w₁, hrun₁, hfetched₁⟩ := cloop_number hb (e := .chatmsg) rfl (by decide) hrest
  have hsession₁ := hfetched₁.session
  obtain ⟨w₂, hrun₂, hfetched₂⟩ := cloop_actrno (w := w₁) (tchngs · .msg)
    (by rw [hsession₁]; exact hb.pv) (by rw [hsession₁]; rfl) (by rw [hsession₁]; rfl) hfetched₁.input
  have hsession₂ := hfetched₂.session
  rw [hsession₁] at hsession₂
  have hlen : mcctlen w₂.z.session .msg = 64 := mcctlen_eq (by rw [hsession₂]; exact hb.pv.2) (by decide)
  obtain ⟨w₃, hcloop, hread, hholds, hfetched₃⟩ := string_call rfl rfl hlen (by rw [hsession₂]; rfl)
    (by rw [hsession₂]; rfl) msg hfetched₂.input
  have htype : (tchngs w₁.z.session.r .msg).type = .msg := rfl
  rw [htype] at hrun₂
  refine ⟨w₂, w₃, ⟨((Goes.refl _).next (by decide) hrun₁).next (by decide) hrun₂, hfetched₂.stdout.trans hfetched₁.stdout,
    ⟨_, hcloop, hread⟩, ⟨_, (hfetched₁.trans hfetched₂).trans hfetched₃, ?_, ?_, ?_⟩⟩, hholds⟩
  all_goals rw [hsession₂]
  exact ⟨rfl, rfl, hb.pv⟩

end Packets

end ClassicX
