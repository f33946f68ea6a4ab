import ClassicX.Mccp.Packet

/-! Every turn of an event loop is a step of the abstract record: it writes the head of the fields that
are left, and leaves the writer at a field again or ends the event. -/

namespace ClassicX
open Turns (Turn Good)
open Fields (Item Step clip rest piece)

/-! ### Field writers -/

theorem fixedw_fits {ctx : Mcx} {qty tlen short : Int} {bytes : List UInt8} {w : Mcseri Mcsevt Int} (h : tlen ≤ qty) :
    fixedw ctx qty tlen short bytes w = ⟨tlen, { ctx with w := w }, bytes⟩ := by
  rw [fixedw, if_neg (by omega)]

theorem fixedw_short {ctx : Mcx} {qty tlen short : Int} {bytes : List UInt8} {w : Mcseri Mcsevt Int} (h : qty < tlen) :
    fixedw ctx qty tlen short bytes w = ⟨short, ctx, []⟩ := by
  rw [fixedw, if_pos (by omega)]

theorem mset_eq {fill : UInt8} {qty : Int} : mset fill qty = piece none fill (qty % 65536).toNat := by
  simp [mset, piece]

/-- A string or array writer stores the next piece of its field. -/
theorem writez_eq {ε τ : Type} {ser : Mcseri ε τ} {qty : Int} {src : Option Ptr} {fill : UInt8} {k : ℕ}
    (hk : (k : Int) = min qty ser.rem) (hlt : k < 65536) :
    writez ser qty src fill = ((k : Int), piece src fill k, { ser with rem := ser.rem - k }) := by
  have hmod : ((k : Int) % 65536).toNat = k := by omega
  unfold writez
  cases src with
  | none => simp [← hk, mset_eq, hmod]
  | some p => simp [← hk, mcopy_, hmod, piece]

/-- A string writer that goes on with the next field when nothing remains. -/
theorem stringw_tixz {ctx : Mcx} {qty tlen : Int} {src : Option Ptr} {k : ℕ} (hk : (k : Int) = min qty ctx.w.rem)
    (hlt : k < 65536) :
    stringw (fun ctx ti rem => tixz ctx ti rem tlen) ctx qty src =
      ⟨k, { ctx with w :=
        if (k : Int) = ctx.w.rem then ⟨tlen, ctx.w.evt, ctx.w.type + 1⟩ else { ctx.w with rem := ctx.w.rem - k } },
        piece src 0x20 k⟩ := by
  have hz : ctx.w.rem - k = 0 ↔ (k : Int) = ctx.w.rem := by omega
  simp only [stringw, writes, writez_eq hk hlt, tixz, hz]
  split <;> rfl

/-- A string writer that ends the event when nothing remains. -/
theorem stringw_trz {ctx : Mcx} {qty : Int} {src : Option Ptr} {k : ℕ} (hk : (k : Int) = min qty ctx.w.rem)
    (hlt : k < 65536) :
    stringw trz ctx qty src =
      ⟨k, { ctx with w :=
        if (k : Int) = ctx.w.rem then ⟨0, .nothing, ctx.w.type + 1⟩ else { ctx.w with rem := ctx.w.rem - k } },
        piece src 0x20 k⟩ := by
  have hz : ctx.w.rem - k = 0 ↔ (k : Int) = ctx.w.rem := by omega
  simp only [stringw, writes, writez_eq hk hlt, trz, hz]
  split
  · simp only [‹(k : Int) = _›, sub_self]
  · rfl

/-- The array writer goes on with the next field when nothing remains. -/
theorem ldw2_eq {ctx : Mcx} {qty : Int} {src : Mccho} {k : ℕ} (hk : (k : Int) = min (clip src.cdat src.cdln qty) ctx.w.rem)
    (hlt : k < 65536) :
    ldw2 ctx qty src =
      ⟨({ ctx with w :=
        if (k : Int) = ctx.w.rem then ⟨0, ctx.w.evt, ctx.w.type + 1⟩ else { ctx.w with rem := ctx.w.rem - k } },
        { src with cdln := rest src.cdat src.cdln k, cdat := src.cdat.map (·.incr k) }), qty, k, piece src.cdat 0 k⟩ := by
  have hz : 0 = ctx.w.rem - k ↔ (k : Int) = ctx.w.rem := by omega
  simp only [ldw2, writex, writez_eq hk hlt, hz]
  split <;> rfl

/-! ### What a turn does -/

theorem placed_fixed {s : Mcx} {i : ℕ} (htype : s.w.type = i + 1) (hk : (sizes s.curpv s.w.evt)[i]? = some none) : Placed s :=
  Or.inr ⟨i, htype, none, hk, fun _ h => nomatch h⟩

theorem placed_text {s : Mcx} {i : ℕ} {n : Int} (htype : s.w.type = i + 1)
    (hk : (sizes s.curpv s.w.evt)[i]? = some (some n)) (hrem : 1 ≤ s.w.rem) (hle : s.w.rem ≤ n) : Placed s :=
  Or.inr ⟨i, htype, some n, hk, fun _ h => Option.some.inj h ▸ ⟨hrem, hle⟩⟩

theorem remains_zero : Remains 0 := ⟨le_rfl, by decide⟩

theorem remains_str : Remains MCSTRLEN := ⟨by decide, by decide⟩

theorem remains_arr : Remains MCARRAYLEN := ⟨by decide, le_rfl⟩

/-- The writer stands at a field of `e`, or has just ended it; the rest of the session is that of `ctx₀`. -/
structure At (e : Mcsevt) (ctx₀ s : Mcx) : Prop where
  frame : s = { ctx₀ with w := s.w }
  rem : Remains s.w.rem
  pos : s.w.evt = e ∧ Placed s ∨ s.w.evt = .nothing ∧ s.w.type ≠ 0

theorem At.move {e : Mcsevt} {ctx₀ s : Mcx} (h : At e ctx₀ s) {w : Mcseri Mcsevt Int} (hrem : Remains w.rem)
    (hpos : w.evt = e ∧ Placed { s with w := w } ∨ w.evt = .nothing ∧ w.type ≠ 0) : At e ctx₀ { s with w := w } where
  frame := by rw [h.frame]
  rem := hrem
  pos := hpos

/-- A turn of the loop of event `e`: a step of the record. -/
structure Moves {π : Type} (e : Mcsevt) (pay : π → Src) (ctx₀ : Mcx) (q : Int) (s : Mcx × π)
    (t : Turn (Mcx × π) UInt8) : Prop where
  count : t.ret = t.bytes.length
  fits : t.ret ≤ t.room
  room : t.room ≤ q
  step : Step q (fieldsAt s.1 (pay s.2)) t.bytes (fieldsAt t.next.1 (pay t.next.2))
  pos : At e ctx₀ t.next.1
  nonneg : (pay t.next.2).NonNeg
  same : t.bytes = [] → t.next = s

section
variable {π : Type} {e : Mcsevt} {pay : π → Src} {ctx₀ : Mcx} {q : Int} {s : Mcx × π}

/-- The turn of a field of fixed size, when it fits or answers with 0. -/
theorem moves_fixed {n short : Int} {bs : List UInt8} {w : Mcseri Mcsevt Int} {fs : List (Item UInt8)} (hq : 0 ≤ q)
    (hpos : At e ctx₀ s.1) (hnn : (pay s.2).NonNeg) (hlen : n = bs.length) (hne : bs ≠ [])
    (hshort : short = 0 ∨ n ≤ q) (hfs : fieldsAt s.1 (pay s.2) = .fixed bs :: fs)
    (hnext : fieldsAt { s.1 with w := w } (pay s.2) = fs) (hat : At e ctx₀ { s.1 with w := w }) :
    Moves e pay ctx₀ q s ((fixedw s.1 q n short bs w).turn s.2 q) := by
  by_cases hfit : n ≤ q
  · rw [fixedw_fits hfit]
    exact {
      count := hlen
      fits := hfit
      room := le_rfl
      step := by
        rw [hfs]
        simp only [Fw.turn, hnext]
        exact .whole (hlen ▸ hfit)
      pos := hat
      nonneg := hnn
      same := fun h => absurd h hne }
  · have h0 : short = 0 := hshort.resolve_right hfit
    rw [fixedw_short (not_le.mp hfit), h0]
    exact {
      count := rfl
      fits := hq
      room := le_rfl
      step := by
        simp only [Fw.turn, hfs]
        exact .short (hlen ▸ not_le.mp hfit)
      pos := hpos
      nonneg := hnn
      same := fun _ => rfl }

/-- The turn of a text field. `adv` moves the payload on, `part` and `last` are the serializer when
    something remains of the field and when nothing does. -/
theorem moves_text (pay : π → Src) (p : Option Ptr) (len room : Int) (adv : Int → π) (last : Mcseri Mcsevt Int)
    {pad : UInt8} {fs : List (Item UInt8)} {k : ℕ} (hq : 0 ≤ q) (hpos : At e ctx₀ s.1) (hevt : s.1.w.evt = e) (hp : Placed s.1)
    (hlen : p.isSome → 0 ≤ len) (hrem : 1 ≤ s.1.w.rem) (hk : (k : Int) = min (clip p len q) s.1.w.rem)
    (hroom : clip p len q ≤ room) (hroomq : room ≤ q)
    (hfs : fieldsAt s.1 (pay s.2) = .text p len pad s.1.w.rem :: fs) (hadv : adv 0 = s.2)
    (hnn : ∀ k : Int, (p.isSome → k ≤ len) → (pay (adv k)).NonNeg)
    (hpart : ∀ k : ℕ, fieldsAt { s.1 with w := { s.1.w with rem := s.1.w.rem - k } } (pay (adv k)) =
      .text (p.map (·.incr k)) (rest p len k) pad (s.1.w.rem - k) :: fs)
    (hlast : ∀ k : ℕ, fieldsAt { s.1 with w := last } (pay (adv k)) = fs) (hlastrem : Remains last.rem)
    (hlastpos : last.evt = e ∧ Placed { s.1 with w := last } ∨ last.evt = .nothing ∧ last.type ≠ 0) :
    Moves e pay ctx₀ q s
      ⟨({ s.1 with w := if (k : Int) = s.1.w.rem then last else { s.1.w with rem := s.1.w.rem - k } }, adv k),
        room, k, piece p pad k⟩ := by
  have hclip : 0 ≤ clip p len q := Fields.clip_nonneg hq hlen
  have hkclip : (k : Int) ≤ clip p len q := by omega
  have hnn' : (pay (adv k)).NonNeg := hnn k fun h => hkclip.trans (Fields.clip_le_len h)
  by_cases hall : (k : Int) = s.1.w.rem
  · rw [if_pos hall]
    exact {
      count := by simp
      fits := hkclip.trans hroom
      room := hroomq
      step := by
        rw [hfs]
        simp only [hlast k]
        exact .last hall (by omega)
      pos := hpos.move hlastrem hlastpos
      nonneg := hnn'
      same := by
        intro h
        have : k = 0 := by simpa using congrArg List.length h
        omega }
  · rw [if_neg hall]
    have hlt : (k : Int) < s.1.w.rem := by omega
    exact {
      count := by simp
      fits := hkclip.trans hroom
      room := hroomq
      step := by
        rw [hfs]
        simp only [hpart k]
        exact .part (by omega) hlt
      pos := by
        refine hpos.move ⟨by simp only; omega, by have := hpos.rem.2; simp only; omega⟩ (Or.inl ⟨hevt, ?_⟩)
        rcases hp with hnil | ⟨i, htype, k', hk', hr⟩
        · exact Or.inl hnil
        · exact Or.inr ⟨i, htype, k', hk', fun n hn => ⟨by simp only; omega, by have := hr n hn; simp only; omega⟩⟩
      nonneg := hnn'
      same := by
        intro h
        obtain rfl : k = 0 := by simpa using congrArg List.length h
        simp [hadv] }

/-- The turn of a string that is followed by a field of the same event. -/
theorem moves_tixz (pay : π → Src) (p : Option Ptr) (len : Int) (adv : Int → π) {room tlen : Int} {fs : List (Item UInt8)}
    (hq : 0 ≤ q) (hpos : At e ctx₀ s.1) (hevt : s.1.w.evt = e) (hp : Placed s.1)
    (hlen : p.isSome → 0 ≤ len) (hrem : 1 ≤ s.1.w.rem) (hle : s.1.w.rem ≤ 64)
    (hroom : clip p len q ≤ room) (hroomq : room ≤ q)
    (hfs : fieldsAt s.1 (pay s.2) = .text p len 0x20 s.1.w.rem :: fs) (hadv : adv 0 = s.2)
    (hnn : ∀ k : Int, (p.isSome → k ≤ len) → (pay (adv k)).NonNeg)
    (hpart : ∀ k : ℕ, fieldsAt { s.1 with w := { s.1.w with rem := s.1.w.rem - k } } (pay (adv k)) =
      .text (p.map (·.incr k)) (rest p len k) 0x20 (s.1.w.rem - k) :: fs)
    (hlast : ∀ k : ℕ, fieldsAt { s.1 with w := ⟨tlen, s.1.w.evt, s.1.w.type + 1⟩ } (pay (adv k)) = fs)
    (htlen : Remains tlen) (hplaced : Placed { s.1 with w := ⟨tlen, s.1.w.evt, s.1.w.type + 1⟩ }) :
    Moves e pay ctx₀ q s ((stringw (fun ctx ti rem => tixz ctx ti rem tlen) s.1 (clip p len q) p).turn
      (adv (stringw (fun ctx ti rem => tixz ctx ti rem tlen) s.1 (clip p len q) p).ret) room) := by
  have hclip : 0 ≤ clip p len q := Fields.clip_nonneg hq hlen
  obtain ⟨k, hk⟩ := Int.eq_ofNat_of_zero_le (le_min hclip (by omega : 0 ≤ s.1.w.rem))
  rw [stringw_tixz hk.symm (by omega)]
  exact moves_text pay p len room adv _ hq hpos hevt hp hlen hrem hk.symm hroom hroomq hfs hadv hnn hpart hlast htlen
    (Or.inl ⟨hevt, hplaced⟩)

/-- The turn of a string that is the last field of its event. -/
theorem moves_trz (pay : π → Src) (p : Option Ptr) (len : Int) (adv : Int → π) {room : Int}
    (hq : 0 ≤ q) (hpos : At e ctx₀ s.1) (hevt : s.1.w.evt = e) (hp : Placed s.1) (htype : 0 < s.1.w.type)
    (hlen : p.isSome → 0 ≤ len) (hrem : 1 ≤ s.1.w.rem) (hle : s.1.w.rem ≤ 64)
    (hroom : clip p len q ≤ room) (hroomq : room ≤ q)
    (hfs : fieldsAt s.1 (pay s.2) = [.text p len 0x20 s.1.w.rem]) (hadv : adv 0 = s.2)
    (hnn : ∀ k : Int, (p.isSome → k ≤ len) → (pay (adv k)).NonNeg)
    (hpart : ∀ k : ℕ, fieldsAt { s.1 with w := { s.1.w with rem := s.1.w.rem - k } } (pay (adv k)) =
      [.text (p.map (·.incr k)) (rest p len k) 0x20 (s.1.w.rem - k)]) :
    Moves e pay ctx₀ q s
      ((stringw trz s.1 (clip p len q) p).turn (adv (stringw trz s.1 (clip p len q) p).ret) room) := by
  have hclip : 0 ≤ clip p len q := Fields.clip_nonneg hq hlen
  obtain ⟨k, hk⟩ := Int.eq_ofNat_of_zero_le (le_min hclip (by omega : 0 ≤ s.1.w.rem))
  rw [stringw_trz hk.symm (by omega)]
  exact moves_text pay p len room adv _ hq hpos hevt hp hlen hrem hk.symm hroom hroomq hfs hadv hnn hpart
    (fun _ => by simp [fieldsAt, layout]) remains_zero (Or.inr ⟨rfl, by simp only; omega⟩)

end

/-! ### The loops, event by event -/

section
variable {ctx₀ : Mcx} {q : Int}

theorem pgw_turn {s : Mcx × Mcgto} (hq : 0 ≤ q) (hp : Placed s.1) (he : s.1.w.evt = .pgreeting)
    (hat : At .pgreeting ctx₀ s.1) (hn : (Src.gto s.2).NonNeg) :
    ∃ t, (do some ((← pgw s.1.w.type) s.1 q s.2)) = some t ∧ Moves .pgreeting .gto ctx₀ q s t := by
  obtain ⟨⟨curpv, pstate, flg, r, rem, evt, type⟩, src⟩ := s
  obtain rfl : evt = .pgreeting := he
  rcases id hp with hnil | ⟨i, rfl, k, hk, hrem⟩
  · simp [sizes] at hnil
  rcases i with _ | _ | _ | _ | i
  · -- version
    refine ⟨_, rfl, moves_fixed hq hat hn rfl (by simp [writeb]) (Or.inl rfl) rfl rfl (hat.move ?_ (Or.inl ⟨rfl, ?_⟩))⟩
    · exact remains_str
    · exact placed_text (i := 1) rfl rfl (by simp [tincr, MCSTRLEN]) le_rfl
  · -- name
    obtain ⟨hr₁, hr₂⟩ := hrem MCSTRLEN (by simpa [sizes] using hk.symm)
    refine ⟨_, rfl, ?_⟩
    simp only [pgw2, swtr, swtis]
    by_cases hv : 3 > curpv
    · rw [if_pos hv]
      refine moves_trz .gto src.gnam src.gnln
        (fun n => { src with gnln := rest src.gnam src.gnln n, gnam := src.gnam.map (·.incr n) }) hq hat rfl
        hp (by simp) hn.1 hr₁ hr₂ (Fields.clip_le _ _ _) le_rfl ?_ ?_ ?_ ?_
      · simp [fieldsAt, layout, hv, cutField, strField]
      · simp
      · exact fun k h => ⟨Fields.rest_nonneg h, hn.2⟩
      · simp [fieldsAt, layout, hv, cutField, strField]
    · rw [if_neg hv]
      refine moves_tixz .gto src.gnam src.gnln
        (fun n => { src with gnln := rest src.gnam src.gnln n, gnam := src.gnam.map (·.incr n) }) hq hat rfl
        hp hn.1 hr₁ hr₂ (Fields.clip_le _ _ _) le_rfl rfl ?_ ?_ (fun _ => rfl) ?_ ?_ ?_
      · simp
      · exact fun k h => ⟨Fields.rest_nonneg h, hn.2⟩
      · simp [fieldsAt, layout, hv, cutField, strField]
      · exact remains_str
      · exact placed_text (i := 2) rfl (by simp [sizes, hv]) (by simp [MCSTRLEN]) le_rfl
  · -- message
    have hv : ¬3 > curpv := fun hv => by simp [sizes, hv] at hk
    obtain ⟨hr₁, hr₂⟩ := hrem MCSTRLEN (by simpa [sizes, hv] using hk.symm)
    refine ⟨_, rfl, ?_⟩
    simp only [pgw3, swtr, swti0]
    by_cases hv' : 6 > curpv
    · rw [if_pos hv']
      refine moves_trz .gto src.gmsg src.gmln
        (fun n => { src with gmln := rest src.gmsg src.gmln n, gmsg := src.gmsg.map (·.incr n) }) hq hat rfl
        hp (by simp) hn.2 hr₁ hr₂ (Fields.clip_le _ _ _) le_rfl ?_ ?_ ?_ ?_
      · simp [fieldsAt, layout, hv, hv', cutField, strField]
      · simp
      · exact fun k h => ⟨hn.1, Fields.rest_nonneg h⟩
      · simp [fieldsAt, layout, hv, hv', cutField, strField]
    · rw [if_neg hv']
      have hfs : fieldsAt ⟨curpv, pstate, flg, r, ⟨rem, .pgreeting, 2 + 1⟩⟩ (.gto src) =
          [.text src.gmsg src.gmln 0x20 rem, .fixed (writeu src.gcfg)] := by
        simp [fieldsAt, layout, hv, hv', cutField, strField]
      refine moves_tixz .gto src.gmsg src.gmln
        (fun n => { src with gmln := rest src.gmsg src.gmln n, gmsg := src.gmsg.map (·.incr n) }) hq hat rfl
        hp hn.2 hr₁ hr₂ (Fields.clip_le _ _ _) le_rfl hfs ?_ ?_ (fun _ => ?_) (fun _ => ?_) remains_zero ?_
      · simp
      · exact fun k h => ⟨hn.1, Fields.rest_nonneg h⟩
      · simp [fieldsAt, layout, hv, hv', cutField, strField]
      · simp [fieldsAt, layout, hv, hv', cutField]
      · exact placed_fixed (i := 3) rfl (by simp [sizes, hv, hv'])
  · -- flags
    have hv : ¬3 > curpv := fun hv => by simp [sizes, hv] at hk
    have hv' : ¬6 > curpv := fun hv' => by simp [sizes, hv, hv'] at hk
    have hfs : fieldsAt ⟨curpv, pstate, flg, r, ⟨rem, .pgreeting, 3 + 1⟩⟩ (.gto src) = [.fixed (writeu src.gcfg)] := by
      simp [fieldsAt, layout, hv, hv', cutField]
    refine ⟨_, rfl, moves_fixed hq hat hn rfl (by simp [writeu]) (Or.inl rfl) hfs ?_ (hat.move hat.rem (Or.inr ⟨rfl, ?_⟩))⟩
    · simp [fieldsAt, layout, treset]
    · simp [treset]
  · simp only [sizes] at hk
    split_ifs at hk <;> simp at hk

theorem ldw_turn {s : Mcx × Mccho} (hq : 0 ≤ q) (hp : Placed s.1) (he : s.1.w.evt = .ldata) (hat : At .ldata ctx₀ s.1)
    (hn : (Src.cho s.2).NonNeg) (hcut : s.2.clen ≤ MCARRAYLEN) :
    ∃ t, (do some ((← ldw s.1.w.type) s.1 q s.2)) = some t ∧ Moves .ldata .cho ctx₀ q s t := by
  obtain ⟨⟨curpv, pstate, flg, r, rem, evt, type⟩, src⟩ := s
  obtain rfl : evt = .ldata := he
  rcases id hp with hnil | ⟨i, rfl, k, hk, hrem⟩
  · simp [sizes] at hnil
  rcases i with _ | _ | _ | i
  · -- length
    have hfs : fieldsAt ⟨curpv, pstate, flg, r, ⟨rem, .ldata, 0 + 1⟩⟩ (.cho src) =
        [.fixed (writei (Int16.ofInt src.clen)), arrField src.cdat src.cdln, .fixed (writeb src.cpct)] := by
      simp [fieldsAt, layout, cutField, min_eq_left hcut]
    refine ⟨_, rfl, moves_fixed hq hat hn rfl (by simp [writei]) (Or.inl rfl) hfs rfl (hat.move ?_ (Or.inl ⟨rfl, ?_⟩))⟩
    · exact remains_arr
    · exact placed_text (i := 1) rfl rfl (by simp [tincr, MCARRAYLEN]) le_rfl
  · -- data
    obtain ⟨hr₁, hr₂⟩ := hrem MCARRAYLEN (by simpa [sizes] using hk.symm)
    have hclip : 0 ≤ clip src.cdat src.cdln q := Fields.clip_nonneg hq hn
    obtain ⟨m, hm⟩ := Int.eq_ofNat_of_zero_le (le_min hclip (by simp only at hr₁; omega : 0 ≤ rem))
    have hfs : fieldsAt ⟨curpv, pstate, flg, r, ⟨rem, .ldata, 1 + 1⟩⟩ (.cho src) =
        [.text src.cdat src.cdln 0 rem, .fixed (writeb src.cpct)] := rfl
    refine ⟨_, rfl, ?_⟩
    rw [ldw2_eq hm.symm (by simp only [MCARRAYLEN] at hr₂; omega)]
    exact moves_text .cho src.cdat src.cdln q
      (fun n => { src with cdln := rest src.cdat src.cdln n, cdat := src.cdat.map (·.incr n) }) _ hq hat rfl hp
      hn hr₁ hm.symm (Fields.clip_le _ _ _) le_rfl hfs (by simp)
      (fun k h => Fields.rest_nonneg h) (fun _ => rfl) (fun _ => rfl) remains_zero
      (Or.inl ⟨rfl, placed_fixed (i := 2) rfl rfl⟩)
  · -- percentage
    refine ⟨_, rfl, moves_fixed hq hat hn rfl (by simp [writeb]) (Or.inl rfl) rfl rfl (hat.move hat.rem (Or.inr ⟨rfl, ?_⟩))⟩
    simp [treset]
  · simp [sizes] at hk

theorem buw_turn {s : Mcx × Mcbup} (hq : 0 ≤ q) (hp : Placed s.1) (he : s.1.w.evt = .bupdate)
    (hat : At .bupdate ctx₀ s.1) (hroom : Roomy s.1 q (.bup s.2)) :
    ∃ t, (do some ((← buw s.1.w.type) s.1 q s.2)) = some t ∧ Moves .bupdate .bup ctx₀ q s t ∧
      Roomy t.next.1 (t.room - t.ret) (.bup t.next.2) := by
  obtain ⟨⟨curpv, pstate, flg, r, rem, evt, type⟩, src⟩ := s
  obtain rfl : evt = .bupdate := he
  rcases id hp with hnil | ⟨i, rfl, k, hk, -⟩
  · simp [sizes] at hnil
  rcases i with _ | _ | i
  · -- position
    have hfit : (6 : Int) ≤ q := hroom rfl
    refine ⟨_, rfl, moves_fixed hq hat trivial rfl (by simp [writevec, writei]) (Or.inr hfit) rfl rfl
      (hat.move remains_zero (Or.inl ⟨rfl, placed_fixed (i := 1) rfl rfl⟩)), ?_⟩
    simp [buw1, i3wti0, fixedw_fits hfit, Roomy, Fw.turn, tincr]
  · -- block
    refine ⟨_, rfl, moves_fixed hq hat trivial rfl (by simp [writeb]) (Or.inl rfl) rfl rfl
      (hat.move hat.rem (Or.inr ⟨rfl, by simp [treset]⟩)), ?_⟩
    by_cases hfit : (1 : Int) ≤ q
    · simp [buw2, bwtr, fixedw_fits hfit, Roomy, Fw.turn, treset]
    · simp [buw2, bwtr, fixedw_short (not_le.mp hfit), Roomy, Fw.turn]
  · simp [sizes] at hk

theorem enw_moves {s : Mcx × Mcent} (hq : 0 ≤ q) (hp : Placed s.1) (he : s.1.w.evt = .enew)
    (hat : At .enew ctx₀ s.1) (hn : (Src.eno s.2).NonNeg) (hfit : s.1.w.type = 3 → 8 ≤ q) :
    ∃ t, (do some ((← enw s.1.w.type) s.1 q s.2)) = some t ∧ Moves .enew .eno ctx₀ q s t := by
  obtain ⟨⟨curpv, pstate, flg, r, rem, evt, type⟩, src⟩ := s
  obtain rfl : evt = .enew := he
  rcases id hp with hnil | ⟨i, rfl, k, hk, hrem⟩
  · simp [sizes] at hnil
  rcases i with _ | _ | _ | i
  · -- number
    refine ⟨_, rfl, moves_fixed hq hat hn rfl (by simp [writeb]) (Or.inl rfl) rfl rfl (hat.move ?_ (Or.inl ⟨rfl, ?_⟩))⟩
    · exact remains_str
    · exact placed_text (i := 1) rfl rfl (by simp [tincr, MCSTRLEN]) le_rfl
  · -- name
    obtain ⟨hr₁, hr₂⟩ := hrem MCSTRLEN (by simpa [sizes] using hk.symm)
    exact ⟨_, rfl, moves_tixz .eno src.enam src.enln
      (fun n => { src with enln := rest src.enam src.enln n, enam := src.enam.map (·.incr n) }) hq hat rfl
      hp hn hr₁ hr₂ (Fields.clip_le _ _ _) le_rfl rfl (by simp)
      (fun k h => Fields.rest_nonneg h) (fun _ => rfl) (fun _ => rfl) remains_zero (placed_fixed (i := 2) rfl rfl)⟩
  · -- state
    exact ⟨_, rfl, moves_fixed hq hat hn rfl (by simp [writevec, writei]) (Or.inr (hfit rfl)) rfl rfl
      (hat.move hat.rem (Or.inr ⟨rfl, by simp [treset]⟩))⟩
  · simp [sizes] at hk

/-- A turn leaves the room that the turns after it ask for. -/
theorem enw_roomy {s : Mcx × Mcent} {t : Turn (Mcx × Mcent) UInt8} (hq : 0 ≤ q) (hp : Placed s.1) (he : s.1.w.evt = .enew)
    (hn : (Src.eno s.2).NonNeg) (hroom : Roomy s.1 q (.eno s.2)) (ht : (do some ((← enw s.1.w.type) s.1 q s.2)) = some t) :
    t.ret ≠ 0 → t.room - t.ret ≠ 0 → Roomy t.next.1 (t.room - t.ret) (.eno t.next.2) := by
  obtain ⟨⟨curpv, pstate, flg, r, rem, evt, type⟩, src⟩ := s
  obtain rfl : evt = .enew := he
  rcases id hp with hnil | ⟨i, rfl, k, hk, hrem⟩
  · simp [sizes] at hnil
  obtain ⟨hroom₁, hroom₂, hroom₃⟩ := hroom
  rcases i with _ | _ | _ | i
  · -- number
    obtain rfl : enw1 _ q src = t := Option.some.inj ht
    by_cases hfit : (1 : Int) ≤ q
    · simp only [enw1, bwtis, fixedw_fits hfit]
      intro _ _
      refine ⟨by simp [Fw.turn, tincr], fun _ h₁ h₂ => ?_, by simp [Fw.turn, tincr]⟩
      simp only [Fw.turn, tincr, MCSTRLEN] at h₁ h₂
      exact hroom₁ rfl (by omega) (by omega)
    · simp only [enw1, bwtis, fixedw_short (not_le.mp hfit)]
      exact fun h => absurd rfl h
  · -- name
    obtain rfl : enw2 _ q src = t := Option.some.inj ht
    obtain ⟨hr₁, hr₂⟩ := hrem MCSTRLEN (by simpa [sizes] using hk.symm)
    have hclip : 0 ≤ clip src.enam src.enln q := Fields.clip_nonneg hq hn
    obtain ⟨m, hm⟩ := Int.eq_ofNat_of_zero_le (le_min hclip (by simp only at hr₁; omega : 0 ≤ rem))
    simp only at hr₁ hr₂
    simp only [enw2, swti0]
    rw [stringw_tixz hm.symm (by simp only [MCSTRLEN] at hr₂; omega)]
    intro _ hne
    by_cases hall : (m : Int) = rem
    · -- the name is complete, and the state fits
      have hwhole : Whole src.enam src.enln rem := by
        cases hnam : src.enam with
        | none => exact Or.inl rfl
        | some p =>
          have : clip src.enam src.enln q ≤ src.enln := Fields.clip_le_len (by simp [hnam])
          exact Or.inr (by omega)
      have hle := Fields.clip_le src.enam src.enln q
      have hfar : q < rem + 8 → ¬rem < q := fun h₂ h₁ => hroom₂ rfl h₁ h₂ hwhole
      rw [if_pos hall]
      simp only [Fw.turn] at hne ⊢
      exact ⟨fun h => absurd h (by simp), fun h => absurd h (by simp), fun _ => by omega⟩
    · -- the rest of the name ends where it would have ended
      rw [if_neg hall]
      refine ⟨fun h => absurd h (by simp [Fw.turn]), fun _ h₁ h₂ hw => ?_, fun h => absurd h (by simp [Fw.turn])⟩
      simp only [Fw.turn] at h₁ h₂ hw
      refine hroom₂ rfl (by simp only; omega) (by simp only; omega) ?_
      cases hnam : src.enam with
      | none => exact Or.inl rfl
      | some p =>
        rcases hw with hw | hw
        · simp [hnam] at hw
        · simp only [hnam, rest, Option.isSome_some, if_true] at hw
          exact Or.inr (by simp only; omega)
  · -- state
    obtain rfl : enw3 _ q src = t := Option.some.inj ht
    have hfit : (8 : Int) ≤ q := hroom₃ rfl
    simp [enw3, estwtr, fixedw_fits hfit, Roomy, Fw.turn, treset]
  · simp [sizes] at hk

theorem seestw_moves {s : Mcx × Mceup} (hq : 0 ≤ q) (hp : Placed s.1) (he : s.1.w.evt = .estate)
    (hat : At .estate ctx₀ s.1) (hfit : s.1.w.type = 2 → 8 ≤ q) :
    ∃ t, seestw.turn s.1 q s.2 = some t ∧ Moves .estate .eup ctx₀ q s t := by
  obtain ⟨⟨curpv, pstate, flg, r, rem, evt, type⟩, src⟩ := s
  obtain rfl : evt = .estate := he
  rcases id hp with hnil | ⟨i, rfl, k, hk, -⟩
  · simp [sizes] at hnil
  rcases i with _ | _ | i
  · -- number
    exact ⟨_, rfl, moves_fixed hq hat trivial rfl (by simp [writeb]) (Or.inl rfl) rfl rfl
      (hat.move remains_zero (Or.inl ⟨rfl, placed_fixed (i := 1) rfl rfl⟩))⟩
  · -- state
    exact ⟨_, rfl, moves_fixed hq hat trivial rfl (by simp [writevec, writei]) (Or.inr (hfit rfl)) rfl rfl
      (hat.move hat.rem (Or.inr ⟨rfl, by simp [treset]⟩))⟩
  · simp [sizes] at hk

theorem seestw_roomy {s : Mcx × Mceup} {t : Turn (Mcx × Mceup) UInt8} (hp : Placed s.1) (he : s.1.w.evt = .estate)
    (hroom : Roomy s.1 q (.eup s.2)) (ht : seestw.turn s.1 q s.2 = some t) :
    t.ret ≠ 0 → t.room - t.ret ≠ 0 → Roomy t.next.1 (t.room - t.ret) (.eup t.next.2) := by
  obtain ⟨⟨curpv, pstate, flg, r, rem, evt, type⟩, src⟩ := s
  obtain rfl : evt = .estate := he
  rcases id hp with hnil | ⟨i, rfl, k, hk, -⟩
  · simp [sizes] at hnil
  obtain ⟨hroom₁, hroom₂⟩ := hroom
  rcases i with _ | _ | i
  · -- number
    obtain rfl : (bwti0 _ q src.eno).turn src q = t := Option.some.inj ht
    by_cases hfit : (1 : Int) ≤ q
    · simp only [bwti0, fixedw_fits hfit, Fw.turn, tincr]
      intro _ hne
      exact ⟨fun h => absurd h (by simp), fun _ => by have := hroom₁ rfl; omega⟩
    · simp only [bwti0, fixedw_short (not_le.mp hfit)]
      exact fun h => absurd rfl h
  · -- state
    obtain rfl : (estwtr _ q src).turn src q = t := Option.some.inj ht
    have hfit : (8 : Int) ≤ q := hroom₂ rfl
    simp [estwtr, fixedw_fits hfit, Roomy, Fw.turn, treset]
  · simp [sizes] at hk

theorem seedw_turn {s : Mcx × Mceup} (hq : 0 ≤ q) (hp : Placed s.1) (he : s.1.w.evt = .ediff)
    (hat : At .ediff ctx₀ s.1) : ∃ t, seedw.turn s.1 q s.2 = some t ∧ Moves .ediff .eup ctx₀ q s t := by
  obtain ⟨⟨curpv, pstate, flg, r, rem, evt, type⟩, src⟩ := s
  obtain rfl : evt = .ediff := he
  rcases id hp with hnil | ⟨i, rfl, k, hk, -⟩
  · simp [sizes] at hnil
  rcases i with _ | _ | _ | i
  · exact ⟨_, rfl, moves_fixed hq hat trivial rfl (by simp [writeb]) (Or.inl rfl) rfl rfl
      (hat.move remains_zero (Or.inl ⟨rfl, placed_fixed (i := 1) rfl rfl⟩))⟩
  · exact ⟨_, rfl, moves_fixed hq hat trivial rfl (by simp [write3d, writed]) (Or.inl rfl) rfl rfl
      (hat.move remains_zero (Or.inl ⟨rfl, placed_fixed (i := 2) rfl rfl⟩))⟩
  · exact ⟨_, rfl, moves_fixed hq hat trivial rfl (by simp [write2u, writeu]) (Or.inl rfl) rfl rfl
      (hat.move hat.rem (Or.inr ⟨rfl, by simp [treset]⟩))⟩
  · simp [sizes] at hk

theorem seesdw_turn {s : Mcx × Mceup} (hq : 0 ≤ q) (hp : Placed s.1) (he : s.1.w.evt = .eslide)
    (hat : At .eslide ctx₀ s.1) : ∃ t, seesdw.turn s.1 q s.2 = some t ∧ Moves .eslide .eup ctx₀ q s t := by
  obtain ⟨⟨curpv, pstate, flg, r, rem, evt, type⟩, src⟩ := s
  obtain rfl : evt = .eslide := he
  rcases id hp with hnil | ⟨i, rfl, k, hk, -⟩
  · simp [sizes] at hnil
  rcases i with _ | _ | i
  · exact ⟨_, rfl, moves_fixed hq hat trivial rfl (by simp [writeb]) (Or.inl rfl) rfl rfl
      (hat.move remains_zero (Or.inl ⟨rfl, placed_fixed (i := 1) rfl rfl⟩))⟩
  · exact ⟨_, rfl, moves_fixed hq hat trivial rfl (by simp [write3d, writed]) (Or.inl rfl) rfl rfl
      (hat.move hat.rem (Or.inr ⟨rfl, by simp [treset]⟩))⟩
  · simp [sizes] at hk

theorem seehw_turn {s : Mcx × Mceup} (hq : 0 ≤ q) (hp : Placed s.1) (he : s.1.w.evt = .ehead)
    (hat : At .ehead ctx₀ s.1) : ∃ t, seehw.turn s.1 q s.2 = some t ∧ Moves .ehead .eup ctx₀ q s t := by
  obtain ⟨⟨curpv, pstate, flg, r, rem, evt, type⟩, src⟩ := s
  obtain rfl : evt = .ehead := he
  rcases id hp with hnil | ⟨i, rfl, k, hk, -⟩
  · simp [sizes] at hnil
  rcases i with _ | _ | i
  · exact ⟨_, rfl, moves_fixed hq hat trivial rfl (by simp [writeb]) (Or.inl rfl) rfl rfl
      (hat.move remains_zero (Or.inl ⟨rfl, placed_fixed (i := 1) rfl rfl⟩))⟩
  · exact ⟨_, rfl, moves_fixed hq hat trivial rfl (by simp [write2u, writeu]) (Or.inl rfl) rfl rfl
      (hat.move hat.rem (Or.inr ⟨rfl, by simp [treset]⟩))⟩
  · simp [sizes] at hk

theorem secmw_turn {s : Mcx × Mcmso} (hq : 0 ≤ q) (hp : Placed s.1) (he : s.1.w.evt = .cmsg)
    (hat : At .cmsg ctx₀ s.1) (hn : (Src.mso s.2).NonNeg) :
    ∃ t, secmw.turn s.1 q s.2 = some t ∧ Moves .cmsg .mso ctx₀ q s t := by
  obtain ⟨⟨curpv, pstate, flg, r, rem, evt, type⟩, src⟩ := s
  obtain rfl : evt = .cmsg := he
  rcases id hp with hnil | ⟨i, rfl, k, hk, hrem⟩
  · simp [sizes] at hnil
  rcases i with _ | _ | i
  · -- number
    refine ⟨_, rfl, moves_fixed hq hat hn rfl (by simp [writeb]) (Or.inl rfl) rfl rfl (hat.move ?_ (Or.inl ⟨rfl, ?_⟩))⟩
    · exact remains_str
    · exact placed_text (i := 1) rfl rfl (by simp [tincr, MCSTRLEN]) le_rfl
  · -- message
    obtain ⟨hr₁, hr₂⟩ := hrem MCSTRLEN (by simpa [sizes] using hk.symm)
    exact ⟨_, rfl, moves_trz .mso src.msg src.mlen
      (fun n => { src with mlen := rest src.msg src.mlen n, msg := src.msg.map (·.incr n) }) hq hat rfl
      hp (by simp) hn hr₁ hr₂ le_rfl (Fields.clip_le _ _ _) rfl (by simp)
      (fun k h => Fields.rest_nonneg h) (fun _ => rfl)⟩
  · simp [sizes] at hk

end

/-! ### Turns without room

The three writers that answer with `MCENOTENOUGH`. -/

theorem buw_short {s : Mcx} {q : Int} {x : Mcbup} (htype : s.w.type = 1) (hq : q < 6) :
    (do some ((← buw s.w.type) s q x)) = some ⟨(s, x), q, MCENOTENOUGH, []⟩ := by
  simp [htype, buw, buw1, i3wti0, fixedw_short hq, Fw.turn]

theorem enw_short {s : Mcx} {q : Int} {x : Mcent} (htype : s.w.type = 3) (hq : q < 8) :
    (do some ((← enw s.w.type) s q x)) = some ⟨(s, x), q, MCENOTENOUGH, []⟩ := by
  simp [htype, enw, enw3, estwtr, fixedw_short hq, Fw.turn]

theorem seestw_short {s : Mcx} {q : Int} {x : Mceup} (htype : s.w.type = 2) (hq : q < 8) :
    seestw.turn s q x = some ⟨(s, x), q, MCENOTENOUGH, []⟩ := by
  simp only [htype, seestw.turn, estwtr, fixedw_short hq]
  rfl

end ClassicX
