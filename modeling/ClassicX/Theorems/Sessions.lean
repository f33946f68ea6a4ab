import ClassicX.Mccp.Reader
import ClassicX.Theorems.Misfit

/-! Sessions that calls of `mcswr` lead to. A reachable session has no event in progress, stands at a field
of one, or has an event that was started without room for its number, so that `w.type` is still 0. -/

namespace ClassicX
open Turns (storesAt)
open Fields (clip rest piece)

/-- The sessions that calls of `mcswr` reach from a session that was reset. -/
inductive Reachable : Mcx → Prop
  | reset (s₀ : Mcx) {s : Mcx} {pv : Int} : s ∈ (mcreset [s₀] 1 pv).1 → Reachable s
  | call {s : Mcx} {q : Int} {src : Src} {o : Swr} : Reachable s → 0 ≤ q → Takes s src → src.NonNeg →
      mcswr s q src = some o → Reachable o.ctx

theorem reachable_fresh (pv : Int) : Reachable (fresh pv) := .reset default (List.mem_singleton_self _)

/-- What holds of every reachable session. -/
structure Sound (s : Mcx) : Prop where
  rem : Remains s.w.rem
  pos : s.w.evt = .nothing ∨ s.w.evt ≠ .invalid ∧ (Placed s ∨ s.w.type = 0)

/-! ### Events without their number -/

/-- How a call ends that keeps to its buffer, and what an error leaves behind. -/
structure Tidy (s : Mcx) (q : Int) (src : Src) (o : Swr) : Prop where
  counts : o.Counts q ∨ ∃ m : Mcerr, o.ret = m.code ∧ o.stores = []
  same : o.ret = MCENOTENOUGH → ¬Opens s q src → o.stores = [] ∧ o.ctx = s ∧ o.src = src.cut
  sound : Sound o.ctx

theorem Tidy.stuck {s : Mcx} {q : Int} {src : Src} (hs : Sound s) (hcut : src.cut = src) :
    Tidy s q src ⟨MCENOTENOUGH, s, src, []⟩ where
  counts := Or.inr ⟨.notenough, rfl, rfl⟩
  same := fun _ _ => ⟨rfl, rfl, hcut.symm⟩
  sound := hs

theorem Tidy.counted {s : Mcx} {q n : Int} {src src' : Src} {ctx : Mcx} {bs : List UInt8} (hn : n = bs.length) (hfit : n ≤ q)
    (hs : Sound ctx) : Tidy s q src ⟨n, ctx, src', storesAt 0 bs⟩ where
  counts := Or.inl ⟨by simp [Swr.bytes], by simp [Swr.bytes, hn], hfit⟩
  same := by
    intro h
    have : n = -123 := h
    omega
  sound := hs

/-- A single field of fixed size without the event number before it. -/
theorem mcswr_unstarted_fixed (n short : Int) (bs : List UInt8) {s : Mcx} {q : Int} {src : Src} (hs : Sound s)
    (hcut : src.cut = src) (hevt : s.w.evt ≠ .nothing) (hlen : n = bs.length) (hshort : short = 0 ∨ short = MCENOTENOUGH)
    (hse : sewr s.w.evt s q src = some ((fixedw s q n short bs (treset s.w)).swr src)) :
    ∃ o, mcswr s q src = some o ∧ Tidy s q src o := by
  refine ⟨_, mcswr_eq hse, ?_⟩
  by_cases hfit : n ≤ q
  · subst hlen
    simp only [fixedw_fits hfit, Fw.swr, treset, Mcsevt.zero_eq, ne_eq, not_true_eq_false, false_and, if_false]
    exact .counted rfl hfit ⟨hs.rem, Or.inl rfl⟩
  · have hret : (if Mcsevt.nothing ≠ s.w.evt ∧ 0 = short then MCENOTENOUGH else short) = MCENOTENOUGH := by
      rcases hshort with rfl | rfl
      · simp [hevt.symm]
      · simp
    simp only [fixedw_short (not_le.mp hfit), Fw.swr, hret]
    exact .stuck hs hcut

theorem mcswr_unstarted_bye {s : Mcx} {q : Int} {m : Mcmso} (hq : 0 ≤ q) (hs : Sound s) (he : s.w.evt = .pbye)
    (hnn : (Src.mso m).NonNeg) (htype : s.w.type = 0) : ∃ o, mcswr s q (.mso m) = some o ∧ Tidy s q (.mso m) o := by
  have hclip : 0 ≤ clip m.msg m.mlen q := Fields.clip_nonneg hq hnn
  obtain ⟨k, hk⟩ := Int.eq_ofNat_of_zero_le (le_min hclip hs.rem.1)
  have hle : (k : Int) ≤ q := hk ▸ (min_le_left _ _).trans (Fields.clip_le _ _ _)
  have hrem := hs.rem
  simp only [Remains, MCARRAYLEN] at hrem
  have hse : sewr s.w.evt s q (.mso m) = some (sepbw s q m) := by rw [he]; rfl
  refine ⟨_, mcswr_eq hse, ?_⟩
  simp only [sepbw, swtr, stringw_trz hk.symm (by omega : k < 65536), Fw.swr]
  by_cases hall : (k : Int) = s.w.rem
  · simp only [if_pos hall, ne_eq, not_true_eq_false, false_and, if_false]
    exact .counted (by simp) hle ⟨remains_zero, Or.inl rfl⟩
  · have hsound : Sound { s with w := { s.w with rem := s.w.rem - k } } := by
      refine ⟨⟨by simp only; omega, by simp only [MCARRAYLEN]; omega⟩, ?_⟩
      exact Or.inr ⟨by simp [he], Or.inr htype⟩
    simp only [if_neg hall, he, ne_eq, reduceCtorEq, not_false_eq_true, true_and]
    by_cases h0 : k = 0
    · subst h0
      simpa [← he] using Tidy.stuck (q := q) hs (rfl : (Src.mso m).cut = .mso m)
    · rw [if_neg (by omega : ¬(0 : Int) = k)]
      exact .counted (by simp) hle (by simpa [he] using hsound)

theorem mcswr_unstarted {s : Mcx} {q : Int} {src : Src} (hq : 0 ≤ q) (hs : Sound s) (htakes : Takes s src)
    (hnn : src.NonNeg) (hevt : s.w.evt ≠ .nothing) (htype : s.w.type = 0) (hsizes : sizes s.curpv s.w.evt ≠ [])
    (hnum : ¬Unnumbered s) : ∃ o, mcswr s q src = some o ∧ Tidy s q src o := by
  have hskip : ∀ {π : Type} (pay : π → Src) (x : π) (turn : Mcx → Int → π → Option (Turns.Turn (Mcx × π) UInt8)),
      src = pay x → (pay x).cut = pay x → turn s q x = some (skipw s q x) →
      sewr s.w.evt s q src = fieldLoop turn pay s q x → ∃ o, mcswr s q src = some o ∧ Tidy s q src o := by
    rintro π pay x turn rfl hcut hturn hse
    have hrun : fieldsFrom turn 8192 0 (s, x) q = some ⟨(s, x), 0 + 0, []⟩ := fieldsFrom_last hturn rfl
    rw [fieldLoop_eq hrun] at hse
    refine ⟨_, mcswr_eq hse, ?_⟩
    have hret : (if Mcsevt.nothing ≠ s.w.evt ∧ (0 : Int) = 0 + 0 then MCENOTENOUGH else 0 + 0) = MCENOTENOUGH := by
      simp [hevt.symm]
    simp only [hret]
    exact .stuck hs hcut
  rw [Unnumbered] at hnum
  cases he : s.w.evt <;> cases src <;> (try simp [Takes, Mcsevt.Casts, he] at htakes) <;>
    (try simp [sizes, he] at hsizes) <;> (try simp [htype, he] at hnum)
  case ldim.vec v =>
    exact mcswr_unstarted_fixed 6 MCENOTENOUGH (writevec v) hs rfl hevt rfl (Or.inr rfl) (by rw [he]; rfl)
  case edied.eid b => exact mcswr_unstarted_fixed 1 0 (writeb b) hs rfl hevt rfl (Or.inl rfl) (by rw [he]; rfl)
  case cflags.cfg u => exact mcswr_unstarted_fixed 1 0 (writeu u) hs rfl hevt rfl (Or.inl rfl) (by rw [he]; rfl)
  case pbye.mso m => exact mcswr_unstarted_bye hq hs he hnn htype
  case estate.eup x => exact hskip .eup x seestw.turn rfl rfl (by simp [seestw.turn, htype]) (by rw [he]; rfl)
  case ediff.eup x => exact hskip .eup x seedw.turn rfl rfl (by simp [seedw.turn, htype]) (by rw [he]; rfl)
  case eslide.eup x => exact hskip .eup x seesdw.turn rfl rfl (by simp [seesdw.turn, htype]) (by rw [he]; rfl)
  case ehead.eup x => exact hskip .eup x seehw.turn rfl rfl (by simp [seehw.turn, htype]) (by rw [he]; rfl)
  case cmsg.mso m => exact hskip .mso m secmw.turn rfl rfl (by simp [secmw.turn, htype]) (by rw [he]; rfl)

theorem mcswr_null {s : Mcx} {q : Int} {src : Src} (htakes : Takes s src) (hnum : Unnumbered s) : mcswr s q src = none := by
  obtain ⟨htype, he⟩ := hnum
  have hse : sewr s.w.evt s q src = none := by
    rcases he with he | he | he | he <;> cases src <;> (try simp [Takes, Mcsevt.Casts, he] at htakes) <;>
      simp only [he, sewr, sepgw, seldtw, sebuw, seenw] <;> refine fieldLoop_none ?_
    · simp [htype, pgw]
    · simp [htype, ldw]
    · simp [htype, buw]
    · simp [htype, enw]
  simp only [mcswr, hse, Option.bind_eq_bind, Option.bind_none]

/-! ### Every call -/

/-- The call does not meet a field whose writer's error moves `dst`, nor the null entry of a table. -/
def Fits (s : Mcx) (q : Int) (src : Src) : Prop := Roomy s q src ∧ ¬Unnumbered s

theorem Call.tidy {s : Mcx} {q : Int} {src : Src} {o : Swr} {bs : List UInt8} (h : Call s q src o bs) (hs : Sound s)
    (hevt : s.w.evt ≠ .nothing) : Tidy s q src o := by
  have hinv : s.w.evt ≠ .invalid := (hs.pos.resolve_left hevt).1
  have hbytes : o.bytes = bs := h.bytes
  have hcounts : o.ret = bs.length → o.Counts q := fun hret =>
    ⟨by rw [hbytes, h.stores], by rw [hbytes, hret], hret ▸ h.fits⟩
  have hsame : ∀ n : ℕ, o.ret = n → o.ret = MCENOTENOUGH → ¬Opens s q src → o.stores = [] ∧ o.ctx = s ∧ o.src = src.cut := by
    intro n h₁ h₂
    have : (n : Int) = -123 := h₁.symm.trans h₂
    omega
  rcases h.ends with ⟨-, hret, he, hp⟩ | ⟨-, hret, he, -⟩ | ⟨hnil, hret, hctx, hsrc, -⟩ | ⟨hnil, hret, he, -⟩
  · exact ⟨Or.inl (hcounts hret), hsame _ hret, h.rem, Or.inr ⟨he ▸ hinv, Or.inl hp⟩⟩
  · exact ⟨Or.inl (hcounts hret), hsame _ hret, h.rem, Or.inl he⟩
  · have hstores : o.stores = [] := by rw [h.stores, hnil]; rfl
    exact ⟨Or.inr ⟨.notenough, hret, hstores⟩, fun _ _ => ⟨hstores, hctx, hsrc⟩, hctx ▸ hs⟩
  · exact ⟨Or.inl (hcounts (by rw [hret, hnil]; rfl)), hsame 0 hret, h.rem, Or.inl he⟩

theorem mcswr_open_tidy {s : Mcx} {q : Int} {e : Mcsevt} (hq : 0 ≤ q) (hs : Sound s) (hidle : s.Idle) :
    ∃ o, mcswr s q (.evt e) = some o ∧ Tidy s q (.evt e) o := by
  by_cases he : seencode e = .invalid
  · refine ⟨_, mcswr_invalid hidle.1 hidle.2 he, Or.inr ⟨.invalidop, rfl, rfl⟩, fun h => ?_, hs⟩
    exact absurd h (by decide : MCEINVALIDOP ≠ MCENOTENOUGH)
  have hinv : e ≠ .invalid := fun h => he (by rw [h]; rfl)
  refine ⟨_, mcswr_start hidle.1 hidle.2 he, ?_⟩
  split
  case isTrue hfit =>
    refine .counted rfl hfit ⟨?_, Or.inr ⟨?_, Or.inl (startw_placed he)⟩⟩
    · rw [startw_eq]
      exact remains_str
    · rwa [startw_eq]
  case isFalse hfit =>
    refine ⟨Or.inr ⟨.notenough, rfl, rfl⟩, fun _ hopen => ?_, ?_⟩
    · exact absurd ⟨hidle, by omega, e, rfl, he⟩ hopen
    · by_cases hg : e = .pgreeting ∧ 0 = s.curpv
      · obtain ⟨rfl, h0⟩ := hg
        have hw : startw s.curpv .pgreeting false s.w.rem = ⟨MCSTRLEN, .pgreeting, 1⟩ := by simp [startw, ← h0, tincr]
        rw [hw]
        exact ⟨remains_str, Or.inr ⟨by simp, Or.inl (placed_fixed (i := 0) rfl rfl)⟩⟩
      · have hw : startw s.curpv e false s.w.rem = ⟨s.w.rem, e, 0⟩ := by simp only [startw, if_neg hg]; rfl
        rw [hw]
        exact ⟨hs.rem, Or.inr ⟨hinv, Or.inr rfl⟩⟩

/-- Every call on a sound session that fits. -/
theorem mcswr_tidy {s : Mcx} {q : Int} {src : Src} (hq : 0 ≤ q) (hs : Sound s) (htakes : Takes s src) (hnn : src.NonNeg)
    (hfits : Fits s q src) : ∃ o, mcswr s q src = some o ∧ Tidy s q src o := by
  by_cases hevt : s.w.evt = .nothing
  · by_cases htype : s.w.type = 0
    · obtain ⟨e, rfl⟩ := htakes.evt ⟨hevt, htype⟩
      exact mcswr_open_tidy hq hs ⟨hevt, htype⟩
    · have hend : Tidy s q src ⟨0, { s with w := { s.w with type := 0 } }, src, storesAt 0 []⟩ :=
        .counted rfl hq ⟨hs.rem, Or.inl hevt⟩
      exact ⟨_, mcswr_leftover hevt htype, hend⟩
  · by_cases hp : Placed s
    · obtain ⟨o, bs, ho, hc⟩ := mcswr_call hq hevt hp hs.rem htakes hnn hfits.1
      exact ⟨o, ho, hc.tidy hs hevt⟩
    · have htype : s.w.type = 0 := ((hs.pos.resolve_left hevt).2).resolve_left hp
      exact mcswr_unstarted hq hs htakes hnn hevt htype (fun h => hp (Or.inl h)) hfits.2

/-- A call that does not fit is undefined or strays. -/
theorem mcswr_not_fits {s : Mcx} {q : Int} {src : Src} (hq : 0 ≤ q) (hs : Sound s) (htakes : Takes s src)
    (hnn : src.NonNeg) (hfits : ¬Fits s q src) : mcswr s q src = none ∨ ∃ o, mcswr s q src = some o ∧ Lost s o := by
  by_cases hnum : Unnumbered s
  · exact Or.inl (mcswr_null htakes hnum)
  have hroom : ¬Roomy s q src := fun h => hfits ⟨h, hnum⟩
  have hp : Placed s := by
    by_contra hp
    refine hroom ?_
    rcases hs.pos with hevt | ⟨-, hpos⟩
    · simp only [Roomy, hevt]
    · have htype := hpos.resolve_left hp
      unfold Roomy
      split <;> simp [htype]
  exact Or.inr (mcswr_lost hq hp hs.rem htakes hnn hroom)

theorem reachable_sound {s : Mcx} (h : Reachable s) : Sound s := by
  induction h with
  | reset s₀ hmem =>
    rw [mcreset_one, List.mem_singleton] at hmem
    subst hmem
    exact ⟨remains_zero, Or.inl rfl⟩
  | @call s q src o _ hq htakes hnn ho ih =>
    by_cases hfits : Fits s q src
    · obtain ⟨o', ho', h⟩ := mcswr_tidy hq ih htakes hnn hfits
      obtain rfl := Option.some.inj (ho.symm.trans ho')
      exact h.sound
    · rcases mcswr_not_fits hq ih htakes hnn hfits with hnone | ⟨o', ho', h⟩
      · rw [ho] at hnone
        cases hnone
      · obtain rfl := Option.some.inj (ho.symm.trans ho')
        refine ⟨h.pos.rem, ?_⟩
        rcases h.pos.pos with ⟨he, hp⟩ | ⟨he, -⟩
        · refine Or.inr ⟨fun hinv => ?_, Or.inl hp⟩
          simp [Takes, Mcsevt.Casts, ← he, hinv] at htakes
        · exact Or.inl he

end ClassicX
