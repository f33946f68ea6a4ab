import Mathlib.Data.List.Forall2
import ClassicX.Theorems.WriterTurns

/-! One call of `mcswr` on a session with an event in progress writes the next bytes of the packet and
leaves the writer at a field again, or ends the event, or writes nothing and changes nothing. -/

namespace ClassicX
open Turns (Turn Good doWhile doWhile_spec storesAt)
open Fields (Item Step clip rest piece)

/-! ### Sizes -/

/-- A field has the kind and the size the serializer reckons with. -/
def Sized : Item UInt8 → Option Int → Prop
  | .fixed bs, none => bs ≠ [] ∧ bs.length ≤ 8
  | .text _ _ _ n, some m => n = m ∧ m ≤ MCARRAYLEN
  | _, _ => False

theorem layout_sizes (v : Int) (e : Mcsevt) (src : Src) :
    layout v e src = [] ∨ List.Forall₂ Sized (layout v e src) (sizes v e) := by
  cases e <;> cases src <;> first
    | exact Or.inl rfl
    | refine Or.inr ?_
      simp only [layout, sizes]
      repeat' first
        | exact .nil
        | refine .cons ?_ ?_
        | split
      all_goals simp [Sized, strField, arrField, MCSTRLEN, MCARRAYLEN, writeb, writeu, writevec, writei, write2u, write3d,
        writed]

theorem sizes_length_le (v : Int) (e : Mcsevt) : (sizes v e).length ≤ 4 := by
  cases e <;> simp only [sizes] <;> (try split_ifs) <;> simp

/-- The field the writer stands at: a fixed field as the layout has it, or a text with `rem` bytes to go. -/
theorem fieldsAt_head {s : Mcx} {src : Src} {f : Item UInt8} {fs : List (Item UInt8)} (hp : Placed s)
    (h : fieldsAt s src = f :: fs) :
    (∀ g ∈ fs, g ∈ layout s.curpv s.w.evt src) ∧
      ((∃ bs, f = .fixed bs ∧ f ∈ layout s.curpv s.w.evt src) ∨
        ∃ p len pad n, f = .text p len pad s.w.rem ∧ .text p len pad n ∈ layout s.curpv s.w.evt src ∧
          1 ≤ s.w.rem ∧ s.w.rem ≤ MCARRAYLEN) := by
  rcases hfs : (layout s.curpv s.w.evt src).drop (s.w.type.toNat - 1) with _ | ⟨f₀, fs₀⟩
  · simp [fieldsAt, hfs] at h
  simp only [fieldsAt, hfs, List.cons.injEq] at h
  obtain ⟨rfl, rfl⟩ := h
  have hmem : ∀ g ∈ f₀ :: fs₀, g ∈ layout s.curpv s.w.evt src := fun g hg => List.mem_of_mem_drop (hfs ▸ hg)
  refine ⟨fun g hg => hmem g (List.mem_cons_of_mem _ hg), ?_⟩
  cases f₀ with
  | fixed bs => exact Or.inl ⟨bs, rfl, hmem _ List.mem_cons_self⟩
  | text p len pad n =>
    refine Or.inr ⟨p, len, pad, n, rfl, hmem _ List.mem_cons_self, ?_⟩
    rcases layout_sizes s.curpv s.w.evt src with hnil | hall
    · simp [hnil] at hfs
    -- The layout and the sizes agree at the field the writer stands at.
    have hdrop := List.forall₂_drop (s.w.type.toNat - 1) hall
    rw [hfs] at hdrop
    obtain ⟨k, ks, hk, -, hks⟩ := List.forall₂_cons_left_iff.mp hdrop
    rcases hp with hnil | ⟨i, htype, k', hk', hrem⟩
    · simp [hnil] at hks
    obtain rfl : k' = k := by
      have hi : s.w.type.toNat - 1 = i := by omega
      have : ((sizes s.curpv s.w.evt).drop i)[0]? = (sizes s.curpv s.w.evt)[i + 0]? := List.getElem?_drop
      rw [← hi, hks, add_zero, hi, hk'] at this
      simpa using this.symm
    cases k' with
    | none => exact hk.elim
    | some m =>
      have := hrem m rfl
      exact ⟨this.1, this.2.trans hk.2⟩

/-- No field that is left to write is longer than an array. -/
theorem fieldsAt_le {s : Mcx} (src : Src) (hp : Placed s) :
    (fieldsAt s src).length ≤ 4 ∧ ∀ f ∈ fieldsAt s src, f.flat.length ≤ 1024 := by
  have hlay : (layout s.curpv s.w.evt src).length ≤ 4 ∧ ∀ f ∈ layout s.curpv s.w.evt src, f.flat.length ≤ 1024 := by
    rcases layout_sizes s.curpv s.w.evt src with h | h
    · simp [h]
    refine ⟨h.length_eq ▸ sizes_length_le _ _, fun f hf => ?_⟩
    obtain ⟨n, hn, rfl⟩ := List.mem_iff_getElem.mp hf
    have hn' : n < (sizes s.curpv s.w.evt).length := h.length_eq ▸ hn
    have hk := h.get hn hn'
    simp only [List.get_eq_getElem] at hk
    revert hk
    cases (layout s.curpv s.w.evt src)[n] <;> cases (sizes s.curpv s.w.evt)[n] <;> intro hk <;> simp only [Sized] at hk
    · exact hk.2.trans (by decide)
    · obtain ⟨rfl, hk⟩ := hk
      simp only [MCARRAYLEN] at hk
      simp only [Item.flat, Fields.length_text]
      omega
  rcases hfs : fieldsAt s src with _ | ⟨f, fs⟩
  · simp
  obtain ⟨htl, hhd⟩ := fieldsAt_head hp hfs
  refine ⟨?_, fun g hg => ?_⟩
  · have : (fieldsAt s src).length = ((layout s.curpv s.w.evt src).drop (s.w.type.toNat - 1)).length := by
      unfold fieldsAt
      split
      · simp [*]
      · simp [*]
    rw [← hfs, this, List.length_drop]
    omega
  · rcases List.mem_cons.mp hg with rfl | hg
    · rcases hhd with ⟨-, -, hmem⟩ | ⟨p, len, pad, n, rfl, -, -, hrem⟩
      · exact hlay.2 _ hmem
      · simp only [MCARRAYLEN] at hrem
        simp only [Item.flat, Fields.length_text]
        omega
    · exact hlay.2 _ (htl _ hg)

theorem left_lt {s : Mcx} {src : Src} (hp : Placed s) : (left s src).length < 8192 := by
  obtain ⟨h₁, h₂⟩ := fieldsAt_le src hp
  have : (left s src).length ≤ (fieldsAt s src).length * 1024 := by
    unfold left
    generalize fieldsAt s src = fs at h₂
    induction fs with
    | nil => simp
    | cons f fs ih =>
      have := ih fun g hg => h₂ g (List.mem_cons_of_mem _ hg)
      have := h₂ f List.mem_cons_self
      simp only [Fields.flat_cons, List.length_append, List.length_cons]
      omega
  omega

/-! ### Event writers -/

/-- The payload of a call that wrote nothing: only the length field of a chunk may have been cut. -/
def Src.cut : Src → Src
  | .cho c => .cho c.cut
  | src => src

theorem cut_clen_le (c : Mccho) : c.cut.clen ≤ MCARRAYLEN := by
  unfold Mccho.cut
  split
  · exact le_rfl
  · omega

theorem cut_nonneg {c : Mccho} (h : (Src.cho c).NonNeg) : (Src.cho c.cut).NonNeg := by
  unfold Mccho.cut
  split <;> exact h

theorem fieldsAt_cut {s : Mcx} {src : Src} : fieldsAt s src.cut = fieldsAt s src := by
  have : layout s.curpv s.w.evt src.cut = layout s.curpv s.w.evt src := by
    cases src with
    | cho c =>
      simp only [Src.cut, Mccho.cut]
      split
      · cases s.w.evt <;> simp [layout, le_of_lt ‹MCARRAYLEN < c.clen›]
      · rfl
    | _ => rfl
  rw [fieldsAt, fieldsAt, this]

/-- What an event writer leaves behind that found its event `e` in progress. -/
structure Wrote (e : Mcsevt) (s : Mcx) (q : Int) (src : Src) (o : Swr) (bs : List UInt8) : Prop where
  ret : o.ret = bs.length ∨ bs = [] ∧ o.ret = MCENOTENOUGH
  stores : o.stores = storesAt 0 bs
  fits : (bs.length : Int) ≤ q
  left : left s src = bs ++ left o.ctx o.src
  pos : At e s o.ctx
  nonneg : o.src.NonNeg
  same : bs = [] → o.ctx = s ∧ o.src = src.cut ∧ Step q (fieldsAt s src) [] (fieldsAt s src)

theorem At.refl {s : Mcx} (hp : Placed s) (hrem : Remains s.w.rem) : At s.w.evt s s := ⟨rfl, hrem, Or.inl ⟨rfl, hp⟩⟩

/-- Only three events ask for room. -/
theorem At.roomy {e : Mcsevt} {s₀ s : Mcx} (h : At e s₀ s) (he : e ≠ .bupdate ∧ e ≠ .enew ∧ e ≠ .estate) {q : Int}
    {src : Src} : Roomy s q src := by
  obtain ⟨h₁, h₂, h₃⟩ : s.w.evt ≠ .bupdate ∧ s.w.evt ≠ .enew ∧ s.w.evt ≠ .estate := by
    rcases h.pos with ⟨hp, -⟩ | ⟨hp, -⟩
    · rwa [hp]
    · rw [hp]
      decide
  unfold Roomy
  cases hevt : s.w.evt <;> trivial

section
variable {π : Type} {e : Mcsevt} {pay : π → Src} {cut : π → π} {field : Mcx → Int → π → Option (Turn (Mcx × π) UInt8)} {s₀ : Mcx}

/-- The turns of a loop are steps of the record, and leave room for the turns that follow. -/
def Steady (e : Mcsevt) (pay : π → Src) (cut : π → π) (field : Mcx → Int → π → Option (Turn (Mcx × π) UInt8)) (s₀ : Mcx) :
    Prop :=
  ∀ s x q, 0 ≤ q → At e s₀ s → s.w.evt = e → Placed s → (pay x).NonNeg → Roomy s q (pay x) →
    ∃ t, field s q x = some t ∧ Moves e pay s₀ q (s, cut x) t ∧
      (t.ret ≠ 0 → t.room - t.ret ≠ 0 → Roomy t.next.1 (t.room - t.ret) (pay t.next.2))

/-- The loop over the fields, from offset `n` on. -/
def fieldsFrom (field : Mcx → Int → π → Option (Turn (Mcx × π) UInt8)) (k : ℕ) (n : Int) (s : Mcx × π) (q : Int) :
    Option (Turns.Done (Mcx × π) UInt8) :=
  doWhile (fun s qty => field s.1 qty s.2) (fun s => s.1.w.evt ≠ .nothing) k n s q

theorem fieldLoop_eq {s : Mcx} {q : Int} {x : π} {d : Turns.Done (Mcx × π) UInt8}
    (h : fieldsFrom field 8192 0 (s, x) q = some d) : fieldLoop field pay s q x = some ⟨d.ret, d.next.1, pay d.next.2, d.stores⟩ := by
  simp only [fieldsFrom] at h
  simp only [fieldLoop, h, Option.bind_eq_bind, Option.bind_some]

theorem fieldsFrom_more {k : ℕ} {n q : Int} {s : Mcx} {x : π} {t : Turn (Mcx × π) UInt8} (ht : field s q x = some t)
    (hret : t.ret ≠ 0) (hroom : t.room - t.ret ≠ 0) (hmore : t.next.1.w.evt ≠ .nothing) :
    fieldsFrom field (k + 1) n (s, x) q = (fieldsFrom field k (n + t.ret) t.next (t.room - t.ret)).map
      fun d => { d with stores := storesAt n t.bytes ++ d.stores } :=
  Turns.doWhile_more ht hret hroom (by simpa using hmore)

theorem fieldsFrom_last {k : ℕ} {n q : Int} {s : Mcx} {x : π} {t : Turn (Mcx × π) UInt8} (ht : field s q x = some t)
    (hret : t.ret = 0) : fieldsFrom field (k + 1) n (s, x) q = some ⟨t.next, n + t.ret, storesAt n t.bytes⟩ :=
  Turns.doWhile_last ht (Or.inl hret)

theorem fieldLoop_congr {s : Mcx} {q : Int} {x y : π} (h : field s q x = field s q y) :
    fieldLoop field pay s q x = fieldLoop field pay s q y := by
  have : fieldsFrom field 8192 0 (s, x) q = fieldsFrom field 8192 0 (s, y) q := Turns.doWhile_congr h
  simp only [fieldsFrom] at this
  simp only [fieldLoop, this]

theorem fieldLoop_none {s : Mcx} {q : Int} {x : π} (h : field s q x = none) : fieldLoop field pay s q x = none := by
  have : fieldsFrom field 8192 0 (s, x) q = none := Turns.doWhile_none h
  simp only [fieldsFrom] at this
  simp only [fieldLoop, this, Option.bind_eq_bind, Option.bind_none]

/-- An event loop whose turns are steps of the record. -/
theorem fieldsFrom_wrote (hturn : Steady e pay cut field s₀) (hcut : ∀ x, (pay x).cut = pay (cut x)) {k : ℕ} {n : Int}
    {s : Mcx} {x : π} {q : Int} (hq : 0 ≤ q) (hat : At e s₀ s) (he : s.w.evt = e) (hevt : e ≠ .nothing) (hp : Placed s)
    (hnn : (pay x).NonNeg) (hroom : Roomy s q (pay x)) (hk : (left s (pay x)).length < k) :
    ∃ bs s', fieldsFrom field k n (s, x) q = some ⟨s', n + bs.length, storesAt n bs⟩ ∧ (bs.length : Int) ≤ q ∧
      left s (pay x) = bs ++ left s'.1 (pay s'.2) ∧ At e s₀ s'.1 ∧ (pay s'.2).NonNeg ∧
      (bs = [] → s'.1 = s ∧ pay s'.2 = (pay x).cut ∧ Step q (fieldsAt s (pay x)) [] (fieldsAt s (pay x))) := by
  obtain ⟨t, bs, s', ht, hrun, hlen, hleft, hpost, hpre, hnil⟩ := doWhile_spec
    (fun s qty => field s.1 qty s.2) (fun s => decide (s.1.w.evt ≠ .nothing)) (fun s => left s.1 (pay s.2))
    (fun s q => At e s₀ s.1 ∧ s.1.w.evt = e ∧ (pay s.2).NonNeg ∧ Roomy s.1 q (pay s.2))
    (fun s => At e s₀ s.1 ∧ (pay s.2).NonNeg)
    (by
      rintro ⟨s, x⟩ q hq ⟨hat, he, hnn, hroom⟩
      have hp : Placed s := by
        rcases hat.pos with h | h
        · exact h.2
        · exact absurd (he.symm.trans h.1) hevt
      obtain ⟨t, ht, hm, hr⟩ := hturn s x q hq hat he hp hnn hroom
      refine ⟨t, ht, hm.count, hm.fits, hm.room, ?_, ⟨hm.pos, hm.nonneg⟩, fun h₁ h₂ h₃ => ⟨hm.pos, ?_, hm.nonneg, hr h₁ h₂⟩⟩
      · have := hm.step.flat
        simp only [← hcut, fieldsAt_cut] at this
        exact this
      · rcases hm.pos.pos with h | h
        · exact h.1
        · simp [h.1] at h₃)
    k n (s, x) q hq ⟨hat, he, hnn, hroom⟩ hk
  refine ⟨bs, s', hrun, hlen, hleft, hpost.1, hpost.2, fun h => ?_⟩
  -- The loop stopped at its first turn.
  obtain ⟨t', ht', hm, -⟩ := hturn s x q hq hat he hp hnn hroom
  obtain rfl : t' = t := Option.some.inj (ht'.symm.trans ht)
  have htnil : t'.bytes = [] := List.prefix_nil.mp (h ▸ hpre)
  obtain ⟨rfl, -⟩ := hnil htnil
  have hstep := hm.step
  rw [htnil, hm.same htnil, ← hcut, fieldsAt_cut] at hstep
  rw [hm.same htnil, hcut]
  exact ⟨rfl, rfl, hstep⟩

theorem fieldLoop_wrote (hturn : Steady e pay cut field s₀) (hcut : ∀ x, (pay x).cut = pay (cut x)) {x : π} {q : Int}
    (hq : 0 ≤ q) (hp : Placed s₀) (he : s₀.w.evt = e) (hevt : e ≠ .nothing) (hrem : Remains s₀.w.rem)
    (hnn : (pay x).NonNeg) (hroom : Roomy s₀ q (pay x)) :
    ∃ o bs y, fieldLoop field pay s₀ q x = some o ∧ o.src = pay y ∧ Wrote e s₀ q (pay x) o bs := by
  have hat : At e s₀ s₀ := he ▸ At.refl hp hrem
  obtain ⟨bs, s', hrun, hlen, hleft, hat', hnn', hsame⟩ :=
    fieldsFrom_wrote (n := 0) hturn hcut hq hat he hevt hp hnn hroom (left_lt hp)
  exact ⟨_, bs, s'.2, fieldLoop_eq hrun, rfl, Or.inl (zero_add _), rfl, hlen, hleft, hat', hnn', hsame⟩

end

theorem sepgw_steady {s₀ : Mcx} : Steady .pgreeting .gto id (fun ctx qty src => do some ((← pgw ctx.w.type) ctx qty src)) s₀ := by
  intro s x q hq hat he hp hn _
  obtain ⟨t, ht, hm⟩ := pgw_turn (s := (s, x)) hq hp he hat hn
  exact ⟨t, ht, hm, fun _ _ => hm.pos.roomy (by decide)⟩

theorem seldtw_steady {s₀ : Mcx} :
    Steady .ldata .cho Mccho.cut (fun ctx qty arg => do some ((← ldw ctx.w.type) ctx qty arg.cut)) s₀ := by
  intro s x q hq hat he hp hn _
  obtain ⟨t, ht, hm⟩ := ldw_turn (s := (s, x.cut)) hq hp he hat (cut_nonneg hn) (cut_clen_le x)
  exact ⟨t, ht, hm, fun _ _ => hm.pos.roomy (by decide)⟩

theorem sebuw_steady {s₀ : Mcx} : Steady .bupdate .bup id (fun ctx qty src => do some ((← buw ctx.w.type) ctx qty src)) s₀ := by
  intro s x q hq hat he hp _ hroom
  obtain ⟨t, ht, hm, hr⟩ := buw_turn (s := (s, x)) hq hp he hat hroom
  exact ⟨t, ht, hm, fun _ _ => hr⟩

theorem seenw_steady {s₀ : Mcx} : Steady .enew .eno id (fun ctx qty src => do some ((← enw ctx.w.type) ctx qty src)) s₀ := by
  intro s x q hq hat he hp hn hroom
  have hfit : s.w.type = 3 → 8 ≤ q := by
    simp only [Roomy, he] at hroom
    exact hroom.2.2
  obtain ⟨t, ht, hm⟩ := enw_moves (s := (s, x)) hq hp he hat hn hfit
  exact ⟨t, ht, hm, enw_roomy (s := (s, x)) hq hp he hn hroom ht⟩

theorem seestw_steady {s₀ : Mcx} : Steady .estate .eup id seestw.turn s₀ := by
  intro s x q hq hat he hp _ hroom
  have hfit : s.w.type = 2 → 8 ≤ q := by
    simp only [Roomy, he] at hroom
    exact hroom.2
  obtain ⟨t, ht, hm⟩ := seestw_moves (s := (s, x)) hq hp he hat hfit
  exact ⟨t, ht, hm, seestw_roomy (s := (s, x)) hp he hroom ht⟩

theorem seedw_steady {s₀ : Mcx} : Steady .ediff .eup id seedw.turn s₀ := by
  intro s x q hq hat he hp _ _
  obtain ⟨t, ht, hm⟩ := seedw_turn (s := (s, x)) hq hp he hat
  exact ⟨t, ht, hm, fun _ _ => hm.pos.roomy (by decide)⟩

theorem seesdw_steady {s₀ : Mcx} : Steady .eslide .eup id seesdw.turn s₀ := by
  intro s x q hq hat he hp _ _
  obtain ⟨t, ht, hm⟩ := seesdw_turn (s := (s, x)) hq hp he hat
  exact ⟨t, ht, hm, fun _ _ => hm.pos.roomy (by decide)⟩

theorem seehw_steady {s₀ : Mcx} : Steady .ehead .eup id seehw.turn s₀ := by
  intro s x q hq hat he hp _ _
  obtain ⟨t, ht, hm⟩ := seehw_turn (s := (s, x)) hq hp he hat
  exact ⟨t, ht, hm, fun _ _ => hm.pos.roomy (by decide)⟩

theorem secmw_steady {s₀ : Mcx} : Steady .cmsg .mso id secmw.turn s₀ := by
  intro s x q hq hat he hp hn _
  obtain ⟨t, ht, hm⟩ := secmw_turn (s := (s, x)) hq hp he hat hn
  exact ⟨t, ht, hm, fun _ _ => hm.pos.roomy (by decide)⟩

/-- An event writer without a loop takes a single turn. -/
theorem Moves.wrote {π : Type} {e : Mcsevt} {pay : π → Src} {s : Mcx} {q : Int} {x : π} {t : Turn (Mcx × π) UInt8}
    (hm : Moves e pay s q (s, x) t) (hcut : (pay x).cut = pay x) :
    Wrote e s q (pay x) ⟨t.ret, t.next.1, pay t.next.2, storesAt 0 t.bytes⟩ t.bytes where
  ret := Or.inl hm.count
  stores := rfl
  fits := hm.count ▸ hm.fits.trans hm.room
  left := hm.step.flat
  pos := hm.pos
  nonneg := hm.nonneg
  same := by
    intro h
    have hstep := hm.step
    rw [h, hm.same h] at hstep
    rw [hm.same h]
    exact ⟨rfl, hcut.symm, hstep⟩

/-- Where a writer without a loop stands: at its only field. -/
theorem placed_one {s : Mcx} {k : Option Int} (hp : Placed s) (hs : sizes s.curpv s.w.evt = [k]) :
    s.w.type = 1 ∧ ∀ n, k = some n → 1 ≤ s.w.rem ∧ s.w.rem ≤ n := by
  rcases hp with hnil | ⟨i, htype, k', hk, hrem⟩
  · simp [hs] at hnil
  · rw [hs] at hk
    obtain rfl : i = 0 := by
      have := (List.getElem?_eq_some_iff.mp hk).1
      simpa using this
    obtain rfl : k = k' := by simpa using hk
    exact ⟨by simpa using htype, hrem⟩

theorem sewr_fixed {π : Type} (pay : π → Src) (x : π) (n short : Int) (bs : List UInt8) {s : Mcx} {q : Int} (hq : 0 ≤ q)
    (hp : Placed s) (hrem : Remains s.w.rem) (hs : sizes s.curpv s.w.evt = [none]) (hnn : (pay x).NonNeg)
    (hcut : (pay x).cut = pay x) (hlen : n = bs.length) (hne : bs ≠ []) (hshort : short = 0 ∨ short = MCENOTENOUGH)
    (hlay : layout s.curpv s.w.evt (pay x) = [.fixed bs]) :
    ∃ bs', Wrote s.w.evt s q (pay x) ((fixedw s q n short bs (treset s.w)).swr (pay x)) bs' := by
  obtain ⟨htype, -⟩ := placed_one hp hs
  have hfs : fieldsAt s (pay x) = [.fixed bs] := by simp [fieldsAt, hlay, htype, cutField]
  have hat := At.refl hp hrem
  by_cases hfit : n ≤ q
  · have hnext : fieldsAt { s with w := treset s.w } (pay x) = [] := by simp [fieldsAt, layout, treset]
    have hdone : At s.w.evt s { s with w := treset s.w } := hat.move hrem (Or.inr ⟨rfl, by simp [treset, htype]⟩)
    have hm := moves_fixed (s := (s, x)) hq hat hnn hlen hne (Or.inr hfit : short = 0 ∨ n ≤ q) hfs hnext hdone
    exact ⟨_, hm.wrote hcut⟩
  · rw [fixedw_short (not_le.mp hfit)]
    exact ⟨[], {
      ret := hshort.imp id fun h => ⟨rfl, h⟩
      stores := rfl
      fits := hq
      left := rfl
      pos := hat
      nonneg := hnn
      same := fun _ => ⟨rfl, hcut.symm, by
        rw [hfs]
        exact .short (hlen ▸ not_le.mp hfit)⟩ }⟩

theorem sepbw_wrote {s : Mcx} {q : Int} {m : Mcmso} (hq : 0 ≤ q) (hp : Placed s) (hrem : Remains s.w.rem) (he : s.w.evt = .pbye)
    (hnn : (Src.mso m).NonNeg) : ∃ bs, Wrote s.w.evt s q (.mso m) (sepbw s q m) bs := by
  obtain ⟨htype, hr⟩ := placed_one hp (by rw [he]; rfl)
  obtain ⟨hr₁, hr₂⟩ := hr MCSTRLEN rfl
  have hfs : ∀ s' : Mcx, s'.w.evt = .pbye → s'.w.type = 1 → ∀ m : Mcmso,
      fieldsAt s' (.mso m) = [.text m.msg m.mlen 0x20 s'.w.rem] := by
    intro s' he ht m
    simp [fieldsAt, layout, he, ht, cutField, strField]
  have hm := moves_trz (s := (s, m)) .mso m.msg m.mlen
    (fun n => { m with mlen := rest m.msg m.mlen n, msg := m.msg.map (·.incr n) }) hq (At.refl hp hrem) rfl hp (by simp [htype])
    hnn hr₁ hr₂ (Fields.clip_le _ _ _) le_rfl (hfs s he htype m) (by simp)
    (fun k h => Fields.rest_nonneg h) (fun k => hfs { s with w := { s.w with rem := s.w.rem - k } } he htype _)
  exact ⟨_, hm.wrote rfl⟩

theorem sewr_wrote {s : Mcx} {q : Int} {src : Src} (hq : 0 ≤ q) (hp : Placed s) (hrem : Remains s.w.rem)
    (hs : sizes s.curpv s.w.evt ≠ []) (htakes : Takes s src) (hnn : src.NonNeg) (hroom : Roomy s q src) :
    ∃ o bs, sewr s.w.evt s q src = some o ∧ Wrote s.w.evt s q src o bs ∧ s.w.evt.Casts o.src := by
  -- `Takes` leaves one payload for each event.
  cases he : s.w.evt <;> cases src <;> (try simp [Takes, Mcsevt.Casts, he] at htakes) <;> (try simp [sizes, he] at hs)
  case pgreeting.gto g =>
    obtain ⟨o, bs, y, ho, hy, hw⟩ := fieldLoop_wrote sepgw_steady (fun _ => rfl) hq hp he (by decide) hrem hnn hroom
    exact ⟨o, bs, ho, hw, by rw [hy]; trivial⟩
  case ldata.cho c =>
    obtain ⟨o, bs, y, ho, hy, hw⟩ := fieldLoop_wrote seldtw_steady (fun _ => rfl) hq hp he (by decide) hrem hnn hroom
    exact ⟨o, bs, ho, hw, by rw [hy]; trivial⟩
  case bupdate.bup u =>
    obtain ⟨o, bs, y, ho, hy, hw⟩ := fieldLoop_wrote sebuw_steady (fun _ => rfl) hq hp he (by decide) hrem hnn hroom
    exact ⟨o, bs, ho, hw, by rw [hy]; trivial⟩
  case enew.eno x =>
    obtain ⟨o, bs, y, ho, hy, hw⟩ := fieldLoop_wrote seenw_steady (fun _ => rfl) hq hp he (by decide) hrem hnn hroom
    exact ⟨o, bs, ho, hw, by rw [hy]; trivial⟩
  case estate.eup x =>
    obtain ⟨o, bs, y, ho, hy, hw⟩ := fieldLoop_wrote seestw_steady (fun _ => rfl) hq hp he (by decide) hrem hnn hroom
    exact ⟨o, bs, ho, hw, by rw [hy]; trivial⟩
  case ediff.eup x =>
    obtain ⟨o, bs, y, ho, hy, hw⟩ := fieldLoop_wrote seedw_steady (fun _ => rfl) hq hp he (by decide) hrem hnn hroom
    exact ⟨o, bs, ho, hw, by rw [hy]; trivial⟩
  case eslide.eup x =>
    obtain ⟨o, bs, y, ho, hy, hw⟩ := fieldLoop_wrote seesdw_steady (fun _ => rfl) hq hp he (by decide) hrem hnn hroom
    exact ⟨o, bs, ho, hw, by rw [hy]; trivial⟩
  case ehead.eup x =>
    obtain ⟨o, bs, y, ho, hy, hw⟩ := fieldLoop_wrote seehw_steady (fun _ => rfl) hq hp he (by decide) hrem hnn hroom
    exact ⟨o, bs, ho, hw, by rw [hy]; trivial⟩
  case cmsg.mso m =>
    obtain ⟨o, bs, y, ho, hy, hw⟩ := fieldLoop_wrote secmw_steady (fun _ => rfl) hq hp he (by decide) hrem hnn hroom
    exact ⟨o, bs, ho, hw, by rw [hy]; trivial⟩
  case ldim.vec v =>
    obtain ⟨bs, hw⟩ := sewr_fixed .vec v 6 MCENOTENOUGH (writevec v) hq hp hrem (by rw [he]; rfl) hnn rfl (by rfl)
      (by simp [writevec, writei]) (Or.inr rfl) (by rw [he]; rfl)
    exact ⟨_, bs, rfl, he ▸ hw, trivial⟩
  case edied.eid b =>
    obtain ⟨bs, hw⟩ := sewr_fixed .eid b 1 0 (writeb b) hq hp hrem (by rw [he]; rfl) hnn rfl (by rfl)
      (by simp [writeb]) (Or.inl rfl) (by rw [he]; rfl)
    exact ⟨_, bs, rfl, he ▸ hw, trivial⟩
  case cflags.cfg u =>
    obtain ⟨bs, hw⟩ := sewr_fixed .cfg u 1 0 (writeu u) hq hp hrem (by rw [he]; rfl) hnn rfl (by rfl)
      (by simp [writeu]) (Or.inl rfl) (by rw [he]; rfl)
    exact ⟨_, bs, rfl, he ▸ hw, trivial⟩
  case pbye.mso m =>
    obtain ⟨bs, hw⟩ := sepbw_wrote hq hp hrem he hnn
    exact ⟨_, bs, rfl, he ▸ hw, trivial⟩

end ClassicX
