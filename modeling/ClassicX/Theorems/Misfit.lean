import ClassicX.Theorems.Call

/-! What the loops of a block update, a new entity and an entity state do when they meet a field that does
not fit and whose writer answers with `MCENOTENOUGH`: the loop adds the error to its count and to `dst`,
takes it from the room, and writes the field 123 bytes before the place it belongs to. -/

namespace ClassicX
open Turns (Turn Done storesAt)
open Fields (Item Step clip rest piece)

section
variable {π : Type} {e : Mcsevt} {pay : π → Src} {cut : π → π} {field : Mcx → Int → π → Option (Turn (Mcx × π) UInt8)} {s₀ : Mcx}

/-- The loop stored before the buffer, and its count is neither a count of bytes nor an error. -/
structure Strays (e : Mcsevt) (s₀ : Mcx) (d : Done (Mcx × π) UInt8) : Prop where
  above : -123 < d.ret
  below : d.ret < 0
  store : ∃ p ∈ d.stores, p.1 < 0
  pos : At e s₀ d.next.1

/-- A turn of a loop that strays later. -/
theorem strays_more {k : ℕ} {n q : Int} {s : Mcx} {x : π} {t : Turn (Mcx × π) UInt8} {d : Done (Mcx × π) UInt8}
    (ht : field s q x = some t) (hret : t.ret ≠ 0) (hroom : t.room - t.ret ≠ 0) (hmore : t.next.1.w.evt ≠ .nothing)
    (hd : fieldsFrom field k (n + t.ret) t.next (t.room - t.ret) = some d) (h : Strays e s₀ d) :
    ∃ d', fieldsFrom field (k + 1) n (s, x) q = some d' ∧ Strays e s₀ d' := by
  obtain ⟨p, hp, hneg⟩ := h.store
  exact ⟨{ d with stores := storesAt n t.bytes ++ d.stores }, by rw [fieldsFrom_more ht hret hroom hmore, hd]; rfl, h.above, h.below,
    ⟨p, List.mem_append_right _ hp, hneg⟩, h.pos⟩

/-- The turn that answers with `MCENOTENOUGH`, at a fixed field that is the last but for a byte. -/
theorem strays_back (hturn : Steady e pay cut field s₀) (hcut : ∀ x, (pay x).cut = pay (cut x)) {k : ℕ} {n q : Int}
    {s : Mcx} {x : π} {bs : List UInt8} {fs : List (Item UInt8)} (hq : 0 ≤ q) (hat : At e s₀ s) (he : s.w.evt = e)
    (hevt : e ≠ .nothing) (hp : Placed s) (hnn : (pay x).NonNeg) (hroom : Roomy s (q + 123) (pay x))
    (hn : 0 ≤ n ∧ n ≤ 65) (hfs : fieldsAt s (pay x) = .fixed bs :: fs) (hne : bs ≠ [])
    (hlen : (left s (pay x)).length ≤ 8) (hk : 8 < k) (hback : field s q x = some ⟨(s, x), q, MCENOTENOUGH, []⟩) :
    ∃ d, fieldsFrom field (k + 1) n (s, x) q = some d ∧ Strays e s₀ d := by
  have hlen' : bs.length ≤ (left s (pay x)).length := by
    rw [left, hfs, Fields.flat_cons, List.length_append]
    exact Nat.le_add_right _ _
  obtain ⟨bs', s', hrun, -, hleft, hat', -, hsame⟩ := fieldsFrom_wrote (n := n + MCENOTENOUGH) hturn hcut
    (by omega : 0 ≤ q + 123) hat he hevt hp hnn hroom (by omega : (left s (pay x)).length < k)
  have hne' : bs' ≠ [] := by
    intro h
    obtain ⟨-, -, hstep⟩ := hsame h
    rw [hfs] at hstep
    rcases hstep.nil_cases with ⟨_, _, h', hstuck⟩ | ⟨_, _, _, _, _, h', -⟩
    · obtain ⟨rfl, -⟩ : bs = _ ∧ _ := by simpa using h'
      rcases hstuck with hstuck | hstuck
      · exact hne hstuck
      · omega
    · simp at h'
  have hpos := List.length_pos_iff.mpr hne'
  have hle : bs'.length ≤ 8 := by
    have := congrArg List.length hleft
    rw [List.length_append] at this
    omega
  refine strays_more hback (by decide : MCENOTENOUGH ≠ 0) (by simp only [MCENOTENOUGH, Mcerr.code]; omega) (by rw [he]; exact hevt)
    (by simpa [MCENOTENOUGH, Mcerr.code] using hrun) ?_
  simp only [MCENOTENOUGH, Mcerr.code] at *
  obtain ⟨b, tl, rfl⟩ := List.exists_cons_of_ne_nil hne'
  exact ⟨by simp only; omega, by simp only; omega, ⟨_, List.mem_cons_self, by simp only; omega⟩, hat'⟩

end

/-! ### The three loops -/

structure Lost (s : Mcx) (o : Swr) : Prop where
  above : -123 < o.ret
  below : o.ret < 0
  store : ∃ p ∈ o.stores, p.1 < 0
  pos : At s.w.evt s o.ctx

theorem Strays.lost {π : Type} {pay : π → Src} {s : Mcx} {q : Int} {x : π}
    {field : Mcx → Int → π → Option (Turn (Mcx × π) UInt8)}
    (h : ∃ d, fieldsFrom field 8192 0 (s, x) q = some d ∧ Strays s.w.evt s d) :
    ∃ o, fieldLoop field pay s q x = some o ∧ Lost s o := by
  obtain ⟨d, hd, h⟩ := h
  exact ⟨_, fieldLoop_eq hd, h.above, h.below, h.store, h.pos⟩

theorem sebuw_lost {s : Mcx} {q : Int} {u : Mcbup} (hq : 0 ≤ q) (he : s.w.evt = .bupdate) (htype : s.w.type = 1)
    (hrem : Remains s.w.rem) (hsmall : q < 6) : ∃ o, sebuw s q u = some o ∧ Lost s o := by
  have hp : Placed s := placed_fixed (i := 0) htype (by rw [he]; rfl)
  have hfs : fieldsAt s (.bup u) = [.fixed (writevec u.bpos), .fixed (writeb u.bnew)] := by
    simp [fieldsAt, layout, he, htype, cutField]
  have hat := At.refl hp hrem
  refine Strays.lost ?_
  rw [he] at hat ⊢
  refine strays_back (k := 8191) (n := 0) sebuw_steady (fun _ => rfl) hq hat he (by decide) hp trivial ?_ ⟨le_rfl, by decide⟩
    hfs (by simp [writevec, writei]) ?_ (by decide) (buw_short htype hsmall)
  · simp only [Roomy, he]
    exact fun _ => by omega
  · simp [left, hfs, Item.flat, writevec, writei, writeb]

theorem seestw_lost_state {s₀ s : Mcx} {q : Int} {x : Mceup} {k : ℕ} {n : Int} (hq : 0 ≤ q) (hat : At .estate s₀ s)
    (he : s.w.evt = .estate) (htype : s.w.type = 2) (hsmall : q < 8) (hn : 0 ≤ n ∧ n ≤ 65) (hk : 8 < k) :
    ∃ d, fieldsFrom seestw.turn (k + 1) n (s, x) q = some d ∧ Strays .estate s₀ d := by
  have hp : Placed s := placed_fixed (i := 1) htype (by rw [he]; rfl)
  have hfs : fieldsAt s (.eup x) = [.fixed (writevec x.epos ++ write2u x.head)] := by
    simp [fieldsAt, layout, he, htype, cutField]
  refine strays_back seestw_steady (fun _ => rfl) hq hat he (by decide) hp trivial ?_ hn hfs (by simp [writevec, writei]) ?_ hk
    (seestw_short htype hsmall)
  · simp only [Roomy, he]
    exact ⟨fun h => absurd h (by rw [htype]; decide), fun _ => by omega⟩
  · simp [left, hfs, Item.flat, writevec, writei, write2u, writeu]

theorem seestw_lost {s : Mcx} {q : Int} {x : Mceup} (hq : 0 ≤ q) (he : s.w.evt = .estate) (hrem : Remains s.w.rem)
    (hroom : s.w.type = 1 ∧ 2 ≤ q ∧ q < 9 ∨ s.w.type = 2 ∧ q < 8) : ∃ o, seestw s q x = some o ∧ Lost s o := by
  refine Strays.lost ?_
  rw [he]
  rcases hroom with ⟨htype, h₁, h₂⟩ | ⟨htype, h₁⟩
  · have hat := At.refl (placed_fixed (i := 0) htype (by rw [he]; rfl)) hrem
    have hnext : At .estate s { s with w := tincr s.w 0 } := he ▸ hat.move remains_zero
      (Or.inl ⟨rfl, placed_fixed (i := 1) (by simp [tincr, htype]) (by simp [tincr, he, sizes])⟩)
    obtain ⟨d, hd, h⟩ := seestw_lost_state (k := 8190) (x := x) (n := 1) (q := q - 1) (by omega) hnext
      (by simp [tincr, he]) (by simp [tincr, htype]) (by omega) (by omega) (by decide)
    refine strays_more (t := ⟨({ s with w := tincr s.w 0 }, x), q, 1, writeb x.eno⟩) ?_ one_ne_zero (by simp only; omega)
      (by simp [tincr, he]) hd h
    simp only [htype, seestw.turn, bwti0, fixedw_fits (by omega : (1 : Int) ≤ q)]
    rfl
  · have hat := At.refl (placed_fixed (i := 1) htype (by rw [he]; rfl)) hrem
    exact seestw_lost_state hq (he ▸ hat) he htype h₁ ⟨le_rfl, by decide⟩ (by decide)

theorem seenw_lost_state {s₀ s : Mcx} {q : Int} {x : Mcent} {k : ℕ} {n : Int} (hq : 0 ≤ q) (hat : At .enew s₀ s)
    (he : s.w.evt = .enew) (htype : s.w.type = 3) (hnn : (Src.eno x).NonNeg) (hsmall : q < 8) (hn : 0 ≤ n ∧ n ≤ 65) (hk : 8 < k) :
    ∃ d, fieldsFrom (fun ctx qty src => do some ((← enw ctx.w.type) ctx qty src)) (k + 1) n (s, x) q = some d ∧
      Strays .enew s₀ d := by
  have hp : Placed s := placed_fixed (i := 2) htype (by rw [he]; rfl)
  have hfs : fieldsAt s (.eno x) = [.fixed (writevec x.epos ++ write2u x.head)] := by
    simp [fieldsAt, layout, he, htype, cutField]
  refine strays_back seenw_steady (fun _ => rfl) hq hat he (by decide) hp hnn ?_ hn hfs (by simp [writevec, writei]) ?_ hk
    (enw_short htype hsmall)
  · simp only [Roomy, he, htype]
    exact ⟨fun h => absurd h (by decide), fun h => absurd h (by decide), fun _ => by omega⟩
  · simp [left, hfs, Item.flat, writevec, writei, write2u, writeu]

/-- The name is written to its end, and then the state does not fit. -/
theorem seenw_lost_name {s₀ s : Mcx} {q : Int} {x : Mcent} {k : ℕ} {n : Int} (hat : At .enew s₀ s)
    (he : s.w.evt = .enew) (htype : s.w.type = 2) (hrem : 1 ≤ s.w.rem ∧ s.w.rem ≤ MCSTRLEN)
    (hlo : s.w.rem < q) (hhi : q < s.w.rem + 8) (hwhole : Whole x.enam x.enln s.w.rem) (hn : 0 ≤ n ∧ n ≤ 1) (hk : 8 < k) :
    ∃ d, fieldsFrom (fun ctx qty src => do some ((← enw ctx.w.type) ctx qty src)) (k + 2) n (s, x) q = some d ∧
      Strays .enew s₀ d := by
  obtain ⟨m, hm⟩ := Int.eq_ofNat_of_zero_le (by omega : 0 ≤ s.w.rem)
  simp only [MCSTRLEN] at hrem
  have hclip : (m : Int) = min (clip x.enam x.enln q) s.w.rem := by
    have : s.w.rem ≤ clip x.enam x.enln q := by
      unfold clip
      split_ifs with h
      · rcases hwhole with hw | hw
        · simp [hw] at h
        · omega
      · omega
    omega
  let x' : Mcent := { x with enln := rest x.enam x.enln m, enam := x.enam.map (·.incr m) }
  let s' : Mcx := { s with w := ⟨0, s.w.evt, s.w.type + 1⟩ }
  have hturn : enw2 s q x = ⟨(s', x'), q, m, piece x.enam 0x20 m⟩ := by
    simp only [enw2, swti0, stringw_tixz hclip (by omega : m < 65536), Fw.turn, if_pos hm.symm, s', x']
  have hnext : At .enew s₀ s' := hat.move remains_zero
    (Or.inl ⟨he, placed_fixed (i := 2) (by simp [htype]) (by simp [he, sizes])⟩)
  have hnn' : (Src.eno x').NonNeg := Fields.rest_nonneg fun h => by
    rcases hwhole with hw | hw
    · simp [hw] at h
    · omega
  obtain ⟨d, hd, h⟩ := seenw_lost_state (k := k) (x := x') (n := n + m) (q := q - m) (by omega) hnext he
    (by simp [s', htype]) hnn' (by omega) (by omega) hk
  refine strays_more (t := ⟨(s', x'), q, m, piece x.enam 0x20 m⟩) ?_ (by simp only; omega) (by simp only; omega)
    (by simp [s', he]) hd h
  simp [htype, enw, hturn]

theorem seenw_lost {s : Mcx} {q : Int} {x : Mcent} (hq : 0 ≤ q) (he : s.w.evt = .enew) (hp : Placed s)
    (hrem : Remains s.w.rem) (hnn : (Src.eno x).NonNeg) (hroom : ¬Roomy s q (.eno x)) : ∃ o, seenw s q x = some o ∧ Lost s o := by
  refine Strays.lost ?_
  have hat := At.refl hp hrem
  rw [he] at hat ⊢
  rcases hp with hnil | ⟨i, htype, k, hk, hr⟩
  · simp [he, sizes] at hnil
  simp only [Roomy, he, not_and_or, Classical.not_imp, not_not] at hroom
  rcases hroom with ⟨ht, h₁, h₂, hwhole⟩ | ⟨ht, h₁, h₂, hwhole⟩ | ⟨ht, h₁⟩
  · have hnext : At .enew s { s with w := tincr s.w MCSTRLEN } := hat.move remains_str
      (Or.inl ⟨he, placed_text (i := 1) (by simp [tincr, ht]) (by simp [tincr, he, sizes]) (by simp [tincr, MCSTRLEN]) le_rfl⟩)
    obtain ⟨d, hd, h⟩ := seenw_lost_name (k := 8189) (x := x) (n := 1) (q := q - 1) hnext he (by simp [tincr, ht])
      (by simp [tincr, MCSTRLEN]) (by simp only [tincr, MCSTRLEN]; omega) (by simp only [tincr, MCSTRLEN]; omega) hwhole
      (by decide) (by decide)
    refine strays_more (t := ⟨({ s with w := tincr s.w MCSTRLEN }, x), q, 1, writeb x.eno⟩) ?_ one_ne_zero
      (by simp only; omega) (by simp [tincr, he]) hd h
    simp [ht, enw, enw1, bwtis, fixedw_fits (by omega : (1 : Int) ≤ q), Fw.turn]
  · obtain rfl : i = 1 := by omega
    have hkr := hr MCSTRLEN (by simpa [he, sizes] using hk.symm)
    exact seenw_lost_name (k := 8190) hat he ht hkr h₁ h₂ hwhole (by decide) (by decide)
  · exact seenw_lost_state hq hat he ht hnn (not_le.mp h₁) ⟨le_rfl, by decide⟩ (by decide)

/-- A call without the room that the three events ask for. -/
theorem mcswr_lost {s : Mcx} {q : Int} {src : Src} (hq : 0 ≤ q) (hp : Placed s) (hrem : Remains s.w.rem) (htakes : Takes s src)
    (hnn : src.NonNeg) (hroom : ¬Roomy s q src) : ∃ o, mcswr s q src = some o ∧ Lost s o := by
  have hlost : ∃ o, sewr s.w.evt s q src = some o ∧ Lost s o := by
    have hroom' := hroom
    cases he : s.w.evt <;> cases src <;> (try simp [Takes, Mcsevt.Casts, he] at htakes) <;> (try simp [Roomy, he] at hroom)
    case bupdate.bup u => exact sebuw_lost hq he hroom.1 hrem hroom.2
    case enew.eno x => exact seenw_lost hq he hp hrem hnn hroom'
    case estate.eup x =>
      simp only [Roomy, he, not_and_or, Classical.not_imp, not_le] at hroom'
      exact seestw_lost hq he hrem (by omega)
  obtain ⟨o, ho, h⟩ := hlost
  have hne : ¬(Mcsevt.nothing ≠ o.ctx.w.evt ∧ 0 = o.ret) := by
    intro h'
    have := h.below
    omega
  exact ⟨_, mcswr_eq ho, by rw [if_neg hne]; exact h⟩

end ClassicX
